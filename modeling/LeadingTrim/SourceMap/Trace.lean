/-
# Source maps of edited texts

A new map points from an edited text back to the text before: there is a point where each line
begins and at both ends of each replacement. A map of the text before is carried over to the edited
text: its points on text that is kept move along, those on text that is replaced are dropped, and
the ends of replacements and the lines that begin in them get what the old map tells of their
origins. A map is asked for places in 32-bit words; in texts of less than `2 ^ 32` bytes all places
are such.
-/

import LeadingTrim.Edit.Layout
import LeadingTrim.SourceMap.Basic

namespace LeadingTrim.SourceMap

open Edit (Layout)
open Text (LineIndex)

/-- The point at an offset of the edited text, its origin found by a function on the offset of the
text before. None if the offset is behind the bytes that the edits make. -/
def pointAt? (layout : List (Option Nat)) (out : LineIndex) (origin : Nat → Option Origin)
    (offset : Nat) : Option Point :=
  (layout[offset]?).map fun byte =>
    let (line, column) := out.point offset
    ⟨line, column, byte.bind origin, false⟩

/-- The points of a new map from an edited text to the text before. -/
def create (input output file : Text) (edits : List Edit) : List Point :=
  let layout : Layout := ⟨input.byteSize, output.byteSize, edits⟩
  let index := LineIndex.of input
  let origin (byte : Nat) : Option Origin :=
    let (line, column) := index.point byte
    some ⟨line, column, some file, none⟩
  (Text.lineStarts output ++ layout.edges).filterMap
    (pointAt? layout.origins (.of output) origin)

/-- A point of a map of the text before, moved along with the text on which it lies. -/
def moved? (layout : Layout) (index out : LineIndex) (p : Point) : Option Point :=
  ((index.offset? p.line p.column).bind layout.target?).map fun offset =>
    let (line, column) := out.point offset
    ⟨line, column, p.origin, false⟩

/-- The points of a map of the text before, carried over to the edited text. The origin of the text
at a place of the text before is told by a function. -/
def carryWith (tells : Nat → Nat → Option Origin) (input output : Text) (earlier : List Point)
    (edits : List Edit) : List Point :=
  let layout : Layout := ⟨input.byteSize, output.byteSize, edits⟩
  let index := LineIndex.of input
  let out := LineIndex.of output
  let origin (byte : Nat) : Option Origin :=
    let (line, column) := index.point byte
    tells line column
  earlier.filterMap (moved? layout index out)
    ++ (layout.edges ++ layout.innerLineStarts).filterMap (pointAt? layout.origins out origin)

/-- The points of a map of the text before, carried over to the edited text. -/
def carry (input output : Text) (earlier : List Point) (edits : List Edit) : List Point :=
  carryWith (originAt earlier) input output earlier edits

/-- The points of a map of the text before, carried over to the edited text with places given in
32-bit words. -/
def carryInWords (input output : Text) (earlier : List Point) (edits : List Edit) : List Point :=
  carryWith (fun line column => originAt earlier (wordOf line) (wordOf column)) input output earlier
    edits

end LeadingTrim.SourceMap

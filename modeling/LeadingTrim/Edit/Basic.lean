/-
# Edits

An edit replaces a range of bytes of a text and says of each byte of the replacement where in the
old text it comes from. A list of edits is applied in one pass: what no edit covers is kept. The
pieces that are kept have to lie between characters, or else the edits cannot be applied
(`applied?`); `applyAll` is the text that they make where they can.
-/

import LeadingTrim.Text.Basic

namespace LeadingTrim

/-- The replacement of a range of bytes. -/
structure Edit where
  /-- Where the range begins. -/
  start : Nat
  /-- Where it ends. -/
  stop : Nat
  /-- What takes its place. -/
  text : Text
  /-- For each byte of the replacement the offset in the old text from which it comes, if any. -/
  origins : List (Option Nat)
  deriving DecidableEq, Repr

namespace Edit

/-- The removal of a range. -/
def delete (start stop : Nat) : Edit := ⟨start, stop, [], []⟩

/-- The replacement of a range by a text that comes from one offset as a whole. -/
def synthesize (start stop : Nat) (text : Text) (origin : Nat) : Edit :=
  ⟨start, stop, text, List.replicate text.byteSize (some origin)⟩

/-- The text from an offset on, with the edits applied that are given in order. -/
def applyFrom (input : Text) : Nat → List Edit → Text
  | cursor, [] => input.dropBytes cursor
  | cursor, e :: rest =>
    input.slice cursor e.start ++ e.text ++ applyFrom input (max cursor e.stop) rest

/-- The text with the edits applied, which are in order and apart. -/
def applyAll (input : Text) (edits : List Edit) : Text := applyFrom input 0 edits

/-- The text in front of an edit that begins at the second offset, from the first offset on, if it
can be cut out between characters. Where there is none nothing is cut out. -/
def kept? (input : Text) (cursor start : Nat) : Option Text :=
  if cursor < start then input.slice? cursor start else some []

/-- The text from an offset on, with the edits applied that are given in order, if all that is kept
can be cut out between characters. -/
def appliedFrom? (input : Text) : Nat → List Edit → Option Text
  | cursor, [] => input.slice? (min cursor input.byteSize) input.byteSize
  | cursor, e :: rest => do
    let kept ← kept? input cursor e.start
    let behind ← appliedFrom? input (max cursor e.stop) rest
    return kept ++ e.text ++ behind

/-- The text with the edits applied, if all that is kept can be cut out between characters. -/
def applied? (input : Text) (edits : List Edit) : Option Text := appliedFrom? input 0 edits

end Edit

end LeadingTrim

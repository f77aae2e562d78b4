/-
# Where edits put things

The layout of a list of edits says of each byte of the new text from which byte of the old text it
comes, of each byte of the old text where it is in the new one, and which ranges of the new text are
replacements. If the new text is shorter than what the edits make, only its bytes are mapped.
-/

import LeadingTrim.Edit.Basic
import LeadingTrim.Text.LineIndex

namespace LeadingTrim.Edit

/-- The offsets from one to another, as origins. -/
def keptRange (start stop : Nat) : List (Option Nat) :=
  (List.range' start (stop - start)).map some

/-- The origins of the bytes behind an offset of the old text. -/
def originsFrom (inputSize : Nat) : Nat → List Edit → List (Option Nat)
  | cursor, [] => keptRange cursor inputSize
  | cursor, e :: rest =>
    keptRange cursor e.start ++ e.origins.map (·.filter (· < inputSize))
      ++ originsFrom inputSize (max cursor e.stop) rest

/-- Where a byte of the old text is in the new one, unless an edit removes it. The arguments are
the offset of the old text up to which edits have been applied, and that of the new text there. -/
def targetFrom (inputSize byte : Nat) : Nat → Nat → List Edit → Option Nat
  | cursor, out, [] =>
    if cursor ≤ byte && byte < inputSize then some (out + (byte - cursor)) else none
  | cursor, out, e :: rest =>
    if cursor ≤ byte && byte < e.start then some (out + (byte - cursor))
    else targetFrom inputSize byte (max cursor e.stop)
      (out + (e.start - cursor) + e.origins.length) rest

/-- The edits with the ranges of their replacements in the new text. -/
def spansFrom : Nat → Nat → List Edit → List (Edit × Nat × Nat)
  | _, _, [] => []
  | cursor, out, e :: rest =>
    let start := out + (e.start - cursor)
    let stop := start + e.origins.length
    (e, start, stop) :: spansFrom (max cursor e.stop) stop rest

/-- Where edits put things. -/
structure Layout where
  /-- The number of bytes of the old text. -/
  inputSize : Nat
  /-- The number of bytes of the new text. -/
  outputSize : Nat
  /-- The edits, in order. -/
  edits : List Edit

namespace Layout

/-- For each byte of the new text the byte of the old text from which it comes, if any. -/
def origins (l : Layout) : List (Option Nat) :=
  (originsFrom l.inputSize 0 l.edits).take l.outputSize

/-- Where a byte of the old text is in the new one, if it is kept. -/
def target? (l : Layout) (byte : Nat) : Option Nat :=
  (targetFrom l.inputSize byte 0 0 l.edits).filter (· < l.outputSize)

/-- The edits with the ranges of their replacements. -/
def spans (l : Layout) : List (Edit × Nat × Nat) := spansFrom 0 0 l.edits

/-- The offsets of the new text at which a replacement begins or ends. -/
def edges (l : Layout) : List Nat := l.spans.flatMap fun span => [span.2.1, span.2.2]

/-- The offsets of the new text at which a line begins inside a replacement. -/
def innerLineStarts (l : Layout) : List Nat :=
  l.spans.flatMap fun span => Text.lineStartsFrom span.2.1 span.1.text

end Layout

end LeadingTrim.Edit

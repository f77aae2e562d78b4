/-
# Variable-length quantities

The numbers of a source map are written in digits of five bits, the lowest first, each as one
character of base 64. The sixth bit says that more digits follow, and the lowest bit
of a number is its sign. Numbers are read modulo `2 ^ 64`.
-/

import LeadingTrim.SourceMap.Base64

namespace LeadingTrim.SourceMap.Vlq

/-- The digits of a number that is not negative. -/
def digits (n : Nat) : List Nat :=
  if n < 32 then [n] else (n % 32 + 32) :: digits (n / 32)
termination_by n
decreasing_by omega

/-- A number with its sign as the lowest bit. -/
def signed (n : Int) : Nat := if n < 0 then 2 * n.natAbs + 1 else 2 * n.natAbs

/-- The text of a number. -/
def encode (n : Int) : Text := (digits (signed n)).map Base64.charOf

/-! ## Reading -/

/-- What is wrong with a text of numbers. -/
inductive Fault
  /-- A number of more than 64 bits. -/
  | overflow
  /-- The text ends inside a number. -/
  | leftover
  deriving DecidableEq, Repr

/-- The digits that a character stands for: its five bits and whether more follow. A character
outside the alphabet counts as a row of digits of five set bits, one for each byte of its UTF-8
form, and more follow each; in the digit of the delete character the lowest bit is not set. -/
def digitsOf (c : Char) : List (Nat × Bool) :=
  match Base64.digit? c with
  | some n => [(n % 32, 32 ≤ n)]
  | none => List.replicate c.utf8Size (if c.toNat = 0x7F then 30 else 31, true)

/-- A number of 64 bits with its sign as the lowest bit. The upper half of the range is negative
before the sign is looked at. -/
def unsigned (n : Nat) : Int :=
  let whole : Int := if n < Nat.pow 2 63 then n else (n : Int) - Nat.pow 2 64
  let half := whole / 2
  if n % 2 = 1 then -half else half

/-- The numbers of a row of digits. The arguments are the number that is being read, the place of
its next digit, and the digits. -/
def decodeDigits : Nat → Nat → List (Nat × Bool) → Except Fault (List Int)
  | _, 0, [] => .ok []
  | _, _ + 1, [] => .error .leftover
  | n, place, (digit, more) :: rest =>
    if 64 ≤ place then .error .overflow
    else
      let next := (n + digit * Nat.pow 2 place) % Nat.pow 2 64
      if more then decodeDigits next (place + 5) rest
      else (decodeDigits 0 0 rest).map (unsigned next :: ·)

/-- The numbers of a text. -/
def decode (t : Text) : Except Fault (List Int) := decodeDigits 0 0 (t.flatMap digitsOf)

end LeadingTrim.SourceMap.Vlq

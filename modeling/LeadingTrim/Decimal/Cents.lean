/-
# Rounding to two decimals

Lengths are rounded to two decimals on their decimal text, a half away from zero: `1.005` becomes
`1.01`, although the double nearest to it lies below one half.
-/

import LeadingTrim.Decimal.Format
import LeadingTrim.Decimal.Reading

namespace LeadingTrim.Decimal

/-- The digits before and behind the decimal point of a text; none if it has no point. -/
def splitPoint (t : Text) : Option (Text × Text) :=
  match t.dropWhile (· != '.') with
  | [] => none
  | _ :: fraction => some (t.takeWhile (· != '.'), fraction)

/-- The hundredths of a decimal text, rounded by its third decimal; none if there are at most two
decimals, so that nothing has to be rounded. -/
def cents? (t : Text) : Option Nat :=
  match splitPoint t with
  | some (whole, a :: b :: c :: _) =>
    some (natOfDigits whole * 100 + digitValue a * 10 + digitValue b + if '5' ≤ c then 1 else 0)
  | _ => none

/-- A number as a 64-bit word; none if it is too great for one. -/
def word? (n : Nat) : Option Nat := if n < Nat.pow 2 64 then some n else none

/-- The distance of a character from the digit zero; none if it stands in front of that. -/
def digit? (c : Char) : Option Nat := if '0' ≤ c then some (digitValue c) else none

/-- The hundredths by the steps in which a machine reckons them: none if a decimal is asked for that
is not there, if the difference of a digit and zero is negative, or if a number does not fit in a
word. -/
def checkedCents? (whole fraction : Text) : Option Nat := do
  let units ← word? (natOfDigits whole)
  let hundreds ← word? (units * 100)
  let tenths ← fraction[0]? >>= digit?
  let tens ← word? (tenths * 10)
  let both ← word? (hundreds + tens)
  let hundredths ← fraction[1]? >>= digit?
  let cents ← word? (both + hundredths)
  let third ← fraction[2]?
  if '5' ≤ third then word? (cents + 1) else some cents

/-- The magnitude of one number with the sign of another. -/
def withSign (magnitude sign : Float) : Float :=
  if signBit sign then -magnitude else magnitude

/-- The number rounded to two decimals. Numbers of magnitude `1e15` and more stay as they are, as
do infinities and non-numbers. -/
def roundToCents (x : Float) : Float :=
  if !x.isFinite || 1e15 ≤ x.abs then x
  else match cents? (Format.plain.write x.abs) with
    | none => x
    | some cents => withSign (Float.ofNat cents / 100.0) x

/-- The text of a length: its shortest decimal, without a sign if it is zero. -/
def lengthText (x : Float) : Text := if x == 0.0 then ['0'] else Format.plain.write x

end LeadingTrim.Decimal

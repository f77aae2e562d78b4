/-
# The shortest decimal of a floating-point number

A finite nonzero double is `m * 2 ^ q`. The reals that are read back as it form an interval around
it, whose ends belong to it when `m` is even. Its shortest decimal is the one with the fewest
significant digits in that interval, and of those the nearest to the number. On the grid of
`n`-digit decimals only the two neighbours of the number can be that, so for one digit, two digits,
and so on these two are tested in exact arithmetic until one of them lies in the interval.
-/

import LeadingTrim.Text.Basic

namespace LeadingTrim.Decimal

/-- The magnitude of a finite double: `mantissa * 2 ^ exponent`. -/
structure Binary where
  /-- The significand as an integer, below `2 ^ 53`. -/
  mantissa : Nat
  /-- The exponent of the last bit of the significand. -/
  exponent : Int
  /-- Whether the next smaller magnitude is only half as far away as the next larger one. -/
  narrowBelow : Bool
  deriving DecidableEq, Repr

/-- The magnitude of a double, not to be asked of infinities and non-numbers. -/
def Binary.ofFloat (x : Float) : Binary :=
  let bits := x.toBits.toNat
  let field := bits / Nat.pow 2 52 % Nat.pow 2 11
  let fraction := bits % Nat.pow 2 52
  if field = 0 then ⟨fraction, -1074, false⟩
  else ⟨Nat.pow 2 52 + fraction, Int.ofNat field - 1075, fraction = 0 && 1 < field⟩

/-- Whether the sign bit of a double is set. -/
def signBit (x : Float) : Bool := x.toBits.toNat / Nat.pow 2 63 = 1

/-- Significant digits and the place of the decimal point: the value is `0.d₁d₂… * 10 ^ point`. -/
structure Digits where
  /-- The digits, without zeros at the end. -/
  digits : Text
  /-- How many digits stand before the decimal point. -/
  point : Int
  deriving DecidableEq, Repr

/-- The digits of `n * 10 ^ scale`. -/
def Digits.ofScaled (n : Nat) (scale : Int) : Digits :=
  let all := Nat.toDigits 10 n
  ⟨(all.reverse.dropWhile (· == '0')).reverse, Int.ofNat all.length + scale⟩

/-- Which of two equally near decimals is taken. -/
inductive Tie
  /-- The one with the even last digit. -/
  | toEven
  /-- The greater one. -/
  | up
  deriving DecidableEq, Repr

/-- A power with an integer exponent as a numerator and a denominator, times a given fraction. -/
def scaleBy (base : Nat) (exponent : Int) (fraction : Nat × Nat) : Nat × Nat :=
  match exponent with
  | .ofNat n => (fraction.1 * Nat.pow base n, fraction.2)
  | .negSucc n => (fraction.1, fraction.2 * Nat.pow base (n + 1))

namespace Binary

/-- A quarter of the last bit's value, as a fraction, in units of `10 ^ scale`. -/
def quarter (b : Binary) (scale : Int) : Nat × Nat :=
  scaleBy 10 (-scale) (scaleBy 2 (b.exponent - 2) (1, 1))

/-- Whether `n * 10 ^ scale` is read back as the number. -/
def covers (b : Binary) (scale : Int) (n : Nat) : Bool :=
  let (unit, den) := b.quarter scale
  let low := (4 * b.mantissa - if b.narrowBelow then 1 else 2) * unit
  let high := (4 * b.mantissa + 2) * unit
  if b.mantissa % 2 = 0 then low ≤ n * den && n * den ≤ high
  else low < n * den && n * den < high

/-- The multiple of `10 ^ scale` that is nearest to the number among those read back as it. -/
def nearest? (tie : Tie) (b : Binary) (scale : Int) : Option Nat :=
  let (unit, den) := b.quarter scale
  let value := 4 * b.mantissa * unit
  let below := value / den
  let above := below + 1
  match b.covers scale below, b.covers scale above with
  | false, false => none
  | true, false => some below
  | false, true => some above
  | true, true =>
    let down := value - below * den
    let up := above * den - value
    if down < up then some below
    else if up < down then some above
    else match tie with
      | .up => some above
      | .toEven => if below % 2 = 0 then some below else some above

/-- How many digits the number has before the decimal point; for a number below one, minus the
number of zeros behind the point. -/
def magnitude (b : Binary) : Int :=
  let (unit, den) := b.quarter 0
  let value := 4 * b.mantissa * unit
  if den ≤ value then Int.ofNat (Nat.toDigits 10 (value / den)).length
  else 1 - Int.ofNat (Nat.toDigits 10 ((den + value - 1) / value - 1)).length

/-- The shortest decimal of a nonzero number. Seventeen digits always suffice. -/
def shortest (tie : Tie) (b : Binary) : Digits :=
  let hit := (List.range 17).findSome? fun n =>
    let scale := b.magnitude - Int.ofNat (n + 1)
    (b.nearest? tie scale).map (Digits.ofScaled · scale)
  hit.getD ⟨[], 0⟩

end Binary

end LeadingTrim.Decimal

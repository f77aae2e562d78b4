/-
# Texts of numbers

A number is written with its shortest decimal digits. A format says when an exponent is written
and how, and what is appended to whole numbers. There are three formats: the one of style sheets
and of plain values, the one of log messages, and the one of JSON.
-/

import LeadingTrim.Decimal.Shortest

namespace LeadingTrim.Decimal

/-- How numbers are written. -/
structure Format where
  /-- Which of two equally near shortest decimals is written. -/
  tie : Tie
  /-- What follows a whole number. -/
  whole : Text
  /-- The least and the greatest place of the decimal point for which no exponent is written; none
  if there never is an exponent. -/
  positional : Option (Int × Int)
  /-- What precedes an exponent that is not negative. -/
  plus : Text

/-- Values in style sheets and in answers: never an exponent, nothing behind whole numbers. -/
def Format.plain : Format := ⟨.up, [], none, []⟩

/-- Values in log messages: an exponent from `1e16` on and below `1e-4`, and `.0` behind whole
numbers. -/
def Format.message : Format := ⟨.up, ['.', '0'], some (-3, 16), []⟩

/-- Values in JSON: an exponent from `1e+16` on and below `1e-5`, and `.0` behind whole numbers. -/
def Format.json : Format := ⟨.toEven, ['.', '0'], some (-4, 16), ['+']⟩

/-- The decimal digits of an integer. -/
def ofInt (n : Int) : Text :=
  match n with
  | .ofNat n => Nat.toDigits 10 n
  | .negSucc n => '-' :: Nat.toDigits 10 (n + 1)

/-- The digits with the decimal point in its place and no exponent. -/
def Format.writePositional (f : Format) (d : Digits) : Text :=
  match d.point with
  | .negSucc n => '0' :: '.' :: List.replicate (n + 1) '0' ++ d.digits
  | .ofNat 0 => '0' :: '.' :: d.digits
  | .ofNat point =>
    if d.digits.length ≤ point then
      d.digits ++ List.replicate (point - d.digits.length) '0' ++ f.whole
    else d.digits.take point ++ '.' :: d.digits.drop point

/-- The digits with the point behind the first of them, and an exponent. -/
def Format.writeExponent (f : Format) (d : Digits) : Text :=
  let exponent := d.point - 1
  let fraction := d.digits.drop 1
  d.digits.take 1 ++ (if fraction.isEmpty then [] else '.' :: fraction)
    ++ 'e' :: (if 0 ≤ exponent then f.plus else []) ++ ofInt exponent

/-- The text of a nonzero magnitude. -/
def Format.writeDigits (f : Format) (d : Digits) : Text :=
  match f.positional with
  | none => f.writePositional d
  | some (low, high) =>
    if low ≤ d.point && d.point ≤ high then f.writePositional d else f.writeExponent d

/-- The text of a finite number without its sign. -/
def Format.writeMagnitude (f : Format) (x : Float) : Text :=
  let b := Binary.ofFloat x
  if b.mantissa = 0 then '0' :: f.whole else f.writeDigits (b.shortest f.tie)

/-- The text of a number. -/
def Format.write (f : Format) (x : Float) : Text :=
  if x.isNaN then ['N', 'a', 'N']
  else
    let sign := if signBit x then ['-'] else []
    sign ++ if x.isInf then ['i', 'n', 'f'] else f.writeMagnitude x

end LeadingTrim.Decimal

/-
# Reading numbers

Digits with an optional point and an optional exponent are read as the nearest double. Besides
these, the words `inf`, `infinity` and `nan` are numbers, in any case; a sign may precede each.
-/

import LeadingTrim.Text.Blank

namespace LeadingTrim.Decimal

/-- The value of a decimal digit. -/
def digitValue (c : Char) : Nat := c.toNat - '0'.toNat

/-- The value of a row of decimal digits. -/
def natOfDigits (digits : Text) : Nat := digits.foldl (fun n c => 10 * n + digitValue c) 0

/-- A positive infinity. -/
def infinity : Float := 1.0 / 0.0

/-- The double nearest to `n * 10 ^ exponent`. Beyond the range of doubles it is an infinity or
zero, which is decided by the number of digits alone. -/
def nearestFloat (n : Nat) (exponent : Int) : Float :=
  if n = 0 then 0.0
  else
    let point := Int.ofNat (Nat.toDigits 10 n).length + exponent
    if 400 < point then infinity
    else if point < -400 then 0.0
    else match exponent with
      | .ofNat e => Float.ofScientific n false e
      | .negSucc e => Float.ofScientific n true (e + 1)

/-- The exponent that a text is, sign and digits. -/
def exponent? (t : Text) : Option Int :=
  let (negative, digits) := match t with
    | '-' :: rest => (true, rest)
    | '+' :: rest => (false, rest)
    | _ => (false, t)
  if digits.isEmpty || !digits.all Char.isDigit then none
  else
    let n := Int.ofNat (natOfDigits digits)
    some (if negative then -n else n)

/-- The unsigned decimal number that a text is. -/
def unsigned? (t : Text) : Option Float :=
  let whole := t.takeWhile Char.isDigit
  let afterWhole := t.dropWhile Char.isDigit
  let (fraction, afterFraction) := match afterWhole with
    | '.' :: rest => (rest.takeWhile Char.isDigit, rest.dropWhile Char.isDigit)
    | _ => ([], afterWhole)
  if whole.isEmpty && fraction.isEmpty then none
  else
    let value (e : Int) := nearestFloat (natOfDigits (whole ++ fraction)) (e - fraction.length)
    match afterFraction with
    | [] => some (value 0)
    | c :: rest => if c == 'e' || c == 'E' then (exponent? rest).map value else none

/-- The number that a text is. -/
def float? (t : Text) : Option Float :=
  let (negative, rest) := match t with
    | '-' :: rest => (true, rest)
    | '+' :: rest => (false, rest)
    | _ => (false, t)
  let magnitude :=
    if Text.sameWord rest "inf".toList || Text.sameWord rest "infinity".toList then some infinity
    else if Text.sameWord rest "nan".toList then some (0.0 / 0.0)
    else unsigned? rest
  magnitude.map fun x => if negative then -x else x

end LeadingTrim.Decimal

/-
# Line heights

A line height is a number and a unit: `2`, `1.5em`, `150%`, `24px`. Lengths in `em` and percentages
are relative to the font size, so they are the same as plain factors; a length in another unit
keeps it.
-/

import LeadingTrim.Decimal.Cents

namespace LeadingTrim

/-- A line height as written, or in normal form. -/
structure LineHeight where
  /-- The number. -/
  value : Float
  /-- The unit; empty for a factor. -/
  unit : Text

namespace LineHeight

/-- The number of characters of the number at the front: digits with or without decimals, or
decimals alone. -/
def numberLength (t : Text) : Nat :=
  let whole := (t.takeWhile Char.isDigit).length
  match t.drop whole with
  | '.' :: rest =>
    match (rest.takeWhile Char.isDigit).length with
    | 0 => whole
    | n + 1 => whole + n + 2
  | _ => whole

/-- The number of characters of the unit at the front: a percent sign, or letters. -/
def unitLength : Text → Nat
  | '%' :: _ => 1
  | t => (t.takeWhile Char.isAlpha).length

/-- The line height at the front, with the text behind it. -/
def front? (t : Text) : Option (LineHeight × Text) :=
  let number := numberLength t
  if number = 0 then none
  else
    let rest := t.drop number
    let unit := unitLength rest
    (Decimal.unsigned? (t.take number)).map fun value =>
      (⟨value, rest.take unit⟩, rest.drop unit)

/-- The line height that a text is. -/
def read? (t : Text) : Option LineHeight :=
  match front? t with
  | some (lineHeight, []) => some lineHeight
  | _ => none

/-- The normal form: `em` is dropped, a percentage becomes a factor of two decimals. -/
def normalize (h : LineHeight) : LineHeight :=
  if h.unit = ['e', 'm'] then ⟨h.value, []⟩
  else if h.unit = ['%'] then ⟨Decimal.roundToCents (h.value / 100.0), []⟩
  else h

/-- A factor. -/
def factor (value : Float) : LineHeight := ⟨value, []⟩

/-- The line height that applies, in normal form: one that is given and not zero, or else the
surrounding one if its text is a line height, or else the default. -/
def resolve (given : Option LineHeight) (ambient : Option Text) (default : Float) : LineHeight :=
  let chosen := match given.filter fun h => h.value != 0.0 with
    | some h => some h
    | none => ambient.bind fun raw => read? raw.trim
  normalize (chosen.getD (factor default))

end LineHeight

end LeadingTrim

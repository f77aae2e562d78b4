/-
# JSON values

Font tables, source maps and options come as JSON. An object keeps its members in the order in
which they stand, repeated names included, and a number keeps its digits, so that whoever asks for
a member or a number decides what a repetition or a large number means. A value is *sound* when all
of it can be had: no number is beyond the range of doubles, no string holds half a surrogate pair,
and arrays and objects do not lie too deep in one another.
-/

import LeadingTrim.Decimal.Format
import LeadingTrim.Decimal.Reading

namespace LeadingTrim

/-- A number as written. -/
structure Json.Number where
  /-- Whether a minus sign precedes it. -/
  negative : Bool
  /-- The digits before the point. -/
  whole : Text
  /-- The digits behind the point; none if there is no point. -/
  fraction : Text
  /-- The exponent, if there is one. -/
  exponent : Option Int
  deriving DecidableEq, Repr

/-- A JSON value. -/
inductive Json
  /-- The word `null`. -/
  | null
  /-- A truth value. -/
  | bool (b : Bool)
  /-- A number. -/
  | number (n : Json.Number)
  /-- A string. -/
  | string (t : Text)
  /-- An array. -/
  | array (items : List Json)
  /-- An object. -/
  | object (members : List (Text × Json))
  /-- A string with half a surrogate pair in it, or an object with such a name. -/
  | garbled
  deriving Repr

namespace Json

/-! ## Numbers -/

namespace Number

/-- Whether the number is written without point and exponent. -/
def isInteger (n : Number) : Bool := n.fraction.isEmpty && n.exponent.isNone

/-- The number without its sign, if it is an integer. -/
def magnitude? (n : Number) : Option Nat :=
  if n.isInteger then some (Decimal.natOfDigits n.whole) else none

/-- The number as a natural number below a bound. -/
def below? (bound : Nat) (n : Number) : Option Nat :=
  match n.magnitude? with
  | some m => if !n.negative && m < bound then some m else none
  | none => none

/-- A number with digits put behind it, and how many of them: they are taken from the left as long
as the number stays below `2 ^ 64`. -/
def append : Nat → Text → Nat × Nat
  | n, [] => (n, 0)
  | n, c :: rest =>
    let next := 10 * n + Decimal.digitValue c
    if next < Nat.pow 2 64 then
      let (m, taken) := append next rest
      (m, taken + 1)
    else (n, 0)

/-- A double times ten to a power, by one multiplication or division for every 308 places. None
beyond the range of doubles. -/
def scale (x : Float) : (steps : Nat) → Int → Option Float
  | 0, _ => some x
  | steps + 1, e =>
    if 0 ≤ e then
      if 308 < e then if x == 0.0 then some x else none
      else
        let y := x * Decimal.nearestFloat 1 e
        if y.isInf then none else some y
    else if e < -308 then
      if x == 0.0 then some x else scale (x / Decimal.nearestFloat 1 308) steps (e + 308)
    else some (x / Decimal.nearestFloat 1 (-e))

/-- The number as a double; none beyond the range of doubles. The digits before the point count as
long as they make a number below `2 ^ 64`, then those behind it. The nearest double of what they
make is scaled by the power of ten that remains. -/
def toFloat? (n : Number) : Option Float :=
  let (whole, before) := append 0 n.whole
  let (significand, behind) := append whole n.fraction
  let exponent := n.exponent.getD 0 + Int.ofNat (n.whole.length - before) - Int.ofNat behind
  (scale (Decimal.nearestFloat significand 0) 4 exponent).map fun x => if n.negative then -x else x

/-- The text of the number: integers of at most 64 bits as they are, all others by their value. -/
def text (n : Number) : Text :=
  let bound := if n.negative then Nat.pow 2 63 + 1 else Nat.pow 2 64
  match n.magnitude? with
  | some m =>
    if m < bound && !(n.negative && m == 0) then
      Decimal.ofInt (if n.negative then -Int.ofNat m else Int.ofNat m)
    else (n.toFloat?.map Decimal.Format.json.write).getD []
  | none => (n.toFloat?.map Decimal.Format.json.write).getD []

end Number

/-! ## Values of any type -/

/-- How many arrays and objects can lie in one another in a document that is read in full. -/
def depthLimit : Nat := 127

mutual

/-- Whether a value is sound where so many arrays and objects may lie in one another. -/
def isSound : Nat → Json → Bool
  | _, .number n => n.toFloat?.isSome
  | _, .garbled => false
  | 0, .array _ | 0, .object _ => false
  | room + 1, .array items => areSound room items
  | room + 1, .object members => membersAreSound room members
  | _, _ => true

/-- Whether all values are sound. -/
def areSound : Nat → List Json → Bool
  | _, [] => true
  | room, v :: rest => v.isSound room && areSound room rest

/-- Whether the values of all members are sound. -/
def membersAreSound : Nat → List (Text × Json) → Bool
  | _, [] => true
  | room, (_, v) :: rest => v.isSound room && membersAreSound room rest

end

/-! ## Members of a known type -/

/-- The value, unless it is `null`. -/
def nonNull? : Json → Option Json
  | .null => none
  | v => some v

/-- The text of a string. -/
def text? : Json → Option Text
  | .string t => some t
  | _ => none

/-- The value of a number. -/
def float? : Json → Option Float
  | .number n => n.toFloat?
  | _ => none

/-- A natural number below a bound. -/
def nat? (bound : Nat) : Json → Option Nat
  | .number n => n.below? bound
  | _ => none

/-- The items of an array. -/
def items? : Json → Option (List Json)
  | .array items => some items
  | _ => none

/-- The members of an object. -/
def members? : Json → Option (List (Text × Json))
  | .object members => some members
  | _ => none

/-- The last member of the given name, unless it is `null`. -/
def lookup (members : List (Text × Json)) (name : Text) : Option Json :=
  ((members.reverse.find? (·.1 == name)).map Prod.snd).bind nonNull?

/-- The values of a record: an object has each of the names at most once, and an array has just
their values in order. Absent values and `null` are none. -/
def fields? (names : List Text) : Json → Option (List (Option Json))
  | .object members =>
    if names.all fun name => members.countP (·.1 == name) ≤ 1 then
      some (names.map (lookup members))
    else none
  | .array items => if items.length = names.length then some (items.map nonNull?) else none
  | _ => none

/-- An absent value, or one that is read. None if there is a value and it cannot be read. -/
def optional {α : Type} (read : Json → Option α) : Option Json → Option (Option α)
  | none => some none
  | some v => (read v).map some

end Json

end LeadingTrim

/-
# The `font` shorthand

    font: [<style> || <variant> || <weight> || <stretch>] <size>[/<line-height>] <family>#

A value of one of the words for system fonts and for resetting a property names neither families
nor a line height. A shorthand without a line height sets it to `normal`. Blanks may stand on
either side of the slash.
-/

import LeadingTrim.Decimal.Reading
import LeadingTrim.Font.FamilyList

namespace LeadingTrim.Font

/-- The font settings that apply to a rule's text. -/
structure Ambient where
  /-- The families in order of preference; empty if unknown. -/
  family : List Text
  /-- The line height as written, if one is. -/
  lineHeight : Option Text
  deriving DecidableEq, Repr

/-- Nothing is known. -/
def Ambient.unknown : Ambient := ⟨[], none⟩

/-- System fonts, and the words that reset a property. -/
def resetWords : List Text :=
  ["caption", "icon", "menu", "message-box", "small-caption", "status-bar", "inherit", "initial",
    "unset", "revert", "revert-layer"].map String.toList

/-- Words for styles, variants, weights and stretches. -/
def styleWords : List Text :=
  ["normal", "italic", "oblique", "small-caps", "bold", "bolder", "lighter", "ultra-condensed",
    "extra-condensed", "condensed", "semi-condensed", "semi-expanded", "expanded",
    "extra-expanded", "ultra-expanded"].map String.toList

/-- Words for sizes. -/
def sizeWords : List Text :=
  ["xx-small", "x-small", "small", "medium", "large", "x-large", "xx-large", "xxx-large", "larger",
    "smaller"].map String.toList

/-- Functions whose value can be a size. -/
def sizeFunctions : List Text := ["calc(", "var(", "min(", "max(", "clamp("].map String.toList

/-- Whether a text is one of the words, in any case. -/
def isOneOf (words : List Text) (t : Text) : Bool := words.any t.sameWord

/-- A weight in digits. A lone zero is none: it is a size. -/
def isWeight (t : Text) : Bool := t != ['0'] && t.all Char.isDigit

/-- A number with the unit `deg`. -/
def isAngle (t : Text) : Bool :=
  let n := t.length - 3
  t.drop n == ['d', 'e', 'g'] && (Decimal.float? (t.take n)).isSome

/-- A token that may stand before the size. -/
def isStyle (t : Text) : Bool := isOneOf styleWords t || isWeight t || isAngle t

/-- A size: one of the words, a function, a number with a unit, or a lone zero. -/
def isSize (t : Text) : Bool :=
  let number := (t.takeWhile fun c => c.isDigit || c == '.').length
  !t.isEmpty && (isOneOf sizeWords t || sizeFunctions.any (Text.startsWith · t.lower)
    || (0 < number && (t == ['0'] || number < t.length)))

/-- Blanks outside quotes and parentheses. -/
def blanks : Text.Splitter := ⟨(· == '('), (· == ')'), Text.isBlank⟩

/-- The tokens of a value, each with the text behind it. -/
def tokens (t : Text) : List (Text × Text) := (blanks.split t).filter fun piece => !piece.1.isEmpty

/-- The line height of a shorthand, if it has one, and the text behind the size and it. None if a
slash is followed by nothing. The size token is given with the text behind it. -/
def lineHeightPart? (size : Text × Text) (more : List (Text × Text)) :
    Option (Option Text × Text) :=
  match size.1.dropWhile (· != '/') with
  | [_] => more.head?.map fun (h, behind) => (some h, behind)
  | _ :: attached => some (some attached, size.2)
  | [] =>
    match more with
    | (['/'], _) :: later => later.head?.map fun (h, behind) => (some h, behind)
    | ('/' :: attached, behind) :: _ => some (some attached, behind)
    | _ => some (none, size.2)

/-- The settings that a shorthand makes; none if the value is no shorthand. -/
def shorthand? (value : Text) : Option Ambient :=
  let value := value.trim
  if isOneOf resetWords value then some .unknown
  else match (tokens value).dropWhile fun token => isStyle token.1 with
    | [] => none
    | size :: more =>
      if !isSize (size.1.takeWhile (· != '/')) then none
      else match lineHeightPart? size more with
        | none => none
        | some (lineHeight, behind) =>
          let family := behind.trim
          if family.isEmpty then none
          else some ⟨families family, some (lineHeight.getD "normal".toList)⟩

end LeadingTrim.Font

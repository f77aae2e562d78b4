/-
# Reading directives

Keywords are read as they stand, in small letters, and end where no letter, digit or underscore
follows. The number of a line height and its unit are adjacent. What follows the line height, or
the placement if there is no line height, begins with a blank and is a list of families, which may
not span lines. Behind a line height that blank is a single character, and all behind it belongs
to the list; so a second line break there is refused.
-/

import LeadingTrim.Directive.Basic
import LeadingTrim.Font.FamilyList

namespace LeadingTrim.Directive

open Text (isBlank)

/-- A letter, a digit or an underscore. -/
def isWordChar (c : Char) : Bool := c.isAlphanum || c == '_'

/-- The text behind a keyword at the front. -/
def keyword? (word t : Text) : Option Text :=
  (Text.after? word t).filter fun rest => !rest.head?.any isWordChar

/-- No character that ends a line. -/
def isSingleLine (t : Text) : Bool :=
  t.all fun c => !(c == '\n' || c == '\r' || c.toNat == 0x2028 || c.toNat == 0x2029)

/-- The family list directly behind a line height: a blank, then text on one line. -/
def isFamilyTail : Text → Bool
  | [] => false
  | c :: rest => isBlank c && !rest.isEmpty && isSingleLine rest

/-- What stands behind the placement, as a line height and the text of a family list, of which
either may be absent. -/
def tail? (rest : Text) : Option (Option LineHeight × Option Text) :=
  let text := rest.trimStart
  let withoutLineHeight :=
    if text.isEmpty then some (none, none)
    else if text.length < rest.length && isSingleLine text then some (none, some rest)
    else none
  match LineHeight.front? text with
  | some (lineHeight, behind) =>
    if behind.isEmpty then some (some lineHeight, none)
    else if isFamilyTail behind then some (some lineHeight, some behind)
    else withoutLineHeight
  | none => withoutLineHeight

/-- The placement at the front, with the text behind it. -/
def placement? (t : Text) : Option (Placement × Text) :=
  [Placement.before, .after, .both].findSome? fun p =>
    (keyword? p.keyword t).map fun rest => (p, rest)

/-- Why a value is not a directive. -/
inductive Refusal
  /-- It does not have the form of one. -/
  | malformed
  /-- The keyword for the scope is not known. -/
  | unknownScope (mode : Text)
  deriving DecidableEq, Repr

/-- The directive with an optional keyword for the scope and a text behind it. -/
def parseBehind (mode : Option Text) (rest : Text) : Except Refusal Directive :=
  match placement? rest with
  | none => .error .malformed
  | some (placement, behind) =>
    match tail? behind with
    | none => .error .malformed
    | some (lineHeight, family) =>
      match Scope.ofKeyword? mode with
      | none => .error (.unknownScope (mode.getD []))
      | some scope => .ok {
          scope
          placement
          lineHeight
          fontFamily :=
            ((family.map Text.trim).filter fun f => !f.isEmpty).map Font.directiveFamilies }

/-- The directive that a value is, or why it is none. -/
def parse (value : Text) : Except Refusal Directive :=
  match keyword? "outside".toList value.trim with
  | some behind => parseBehind (some "outside".toList) behind.trimStart
  | none => parseBehind none value.trim

/-- The directive that a value is. -/
def read? (value : Text) : Option Directive := (parse value).toOption

end LeadingTrim.Directive

/-
# The font settings around a directive

A rule's own declarations of `font`, `font-family` and `line-height` say which families and which
line height its text has. The last word wins. A mark `!important` is left out of account.
-/

import LeadingTrim.Font.Shorthand

namespace LeadingTrim.Font

/-- A value without blanks at its end and without the mark `!important` there. -/
def withoutImportant (value : Text) : Text :=
  let value := value.trimEnd
  if value.contains '!' then
    let mark : Text := (value.reverse.takeWhile (· != '!')).reverse
    if mark.lower.trimStart == "important".toList then
      Text.trimEnd (value.take (value.length - mark.length - 1))
    else value
  else value

/-- The settings behind a declaration. -/
def Ambient.declare (font : Ambient) (property value : Text) : Ambient :=
  let value := withoutImportant value
  let property := property.lower
  if property = "font-family".toList then { font with family := families value }
  else if property = "line-height".toList then { font with lineHeight := some value }
  else if property = "font".toList then (shorthand? value).getD font
  else font

/-- The settings of a rule with the given declarations, each a property and its value. -/
def ambient (declarations : List (Text × Text)) : Ambient :=
  declarations.foldl (fun font d => font.declare d.1 d.2) .unknown

end LeadingTrim.Font

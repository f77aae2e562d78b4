/-
# Texts in messages

A message shows a text between double quotes. The quote and the backslash have a backslash in front
of them, the common control characters are named by letters, and all other hidden characters are
given by their number.
-/

import LeadingTrim.Text.Hidden

namespace LeadingTrim.Text

/-- A character inside quotes. -/
def quotedChar (c : Char) : Text :=
  if c == '"' then ['\\', '"']
  else if c == '\\' then ['\\', '\\']
  else if c == '\n' then ['\\', 'n']
  else if c == '\r' then ['\\', 'r']
  else if c == '\t' then ['\\', 't']
  else if c.toNat == 0 then ['\\', '0']
  else if isHidden c then ['\\', 'u', '{'] ++ Nat.toDigits 16 c.toNat ++ ['}']
  else [c]

/-- The text between quotes. -/
def quoted (t : Text) : Text := '"' :: t.flatMap quotedChar ++ ['"']

end LeadingTrim.Text

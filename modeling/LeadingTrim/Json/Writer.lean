/-
# Writing JSON

JSON is written without white space. In strings the quote, the backslash and control characters
are escaped and all else stands for itself.
-/

import LeadingTrim.Decimal.Format

namespace LeadingTrim.Json

/-- A lower-case hexadecimal number of the given width at least. -/
def hex (width n : Nat) : Text :=
  let digits := Nat.toDigits 16 n
  List.replicate (width - digits.length) '0' ++ digits

/-- A character in a string. -/
def escape (c : Char) : Text :=
  if c == '"' then ['\\', '"']
  else if c == '\\' then ['\\', '\\']
  else if c.toNat == 8 then ['\\', 'b']
  else if c == '\t' then ['\\', 't']
  else if c == '\n' then ['\\', 'n']
  else if c.toNat == 12 then ['\\', 'f']
  else if c == '\r' then ['\\', 'r']
  else if c.toNat < 0x20 then '\\' :: 'u' :: hex 4 c.toNat
  else [c]

/-- A string. -/
def quote (t : Text) : Text := '"' :: t.flatMap escape ++ ['"']

/-- An array of written values. -/
def list (items : List Text) : Text := '[' :: Text.joinWith [','] items ++ [']']

/-- An object of written values. -/
def record (members : List (Text × Text)) : Text :=
  '{' :: Text.joinWith [','] (members.map fun m => quote m.1 ++ ':' :: m.2) ++ ['}']

end LeadingTrim.Json

/-
# Words, comments and strings

The pieces that style sheets are written with, each as the number of characters that it has at the
front of a text: names, plain words, numbers, colours, escapes, comments and strings. Which of them
are looked for depends on the place (`Place`).
-/

import LeadingTrim.Text.Blank

namespace LeadingTrim.Sheet

open Text (isSheetSpace)

/-- A hexadecimal digit. -/
def isHex (c : Char) : Bool :=
  c.isDigit || ('a' ≤ c && c ≤ 'f') || ('A' ≤ c && c ≤ 'F')

/-! ## Names and plain words -/

/-- A character that can begin a name: a letter, an underscore, or one of the Latin-1 characters
from U+00A0 on. -/
def isNameStart (c : Char) : Bool :=
  c.isAlpha || c == '_' || (0xA0 ≤ c.toNat && c.toNat ≤ 0xFF)

/-- A character that can stand inside a name. -/
def isNameChar (c : Char) : Bool := isNameStart c || c.isDigit || c == '-'

/-- The number of characters of the name at the front; zero if there is none. -/
def nameLength : Text → Nat
  | '-' :: '-' :: rest => 2 + (rest.takeWhile isNameChar).length
  | '-' :: c :: rest => if isNameStart c then 2 + (rest.takeWhile isNameChar).length else 0
  | c :: rest => if isNameStart c then 1 + (rest.takeWhile isNameChar).length else 0
  | [] => 0

/-- A character that no plain word holds. -/
def endsPlain (c : Char) : Bool :=
  isSheetSpace c || [',', ';', '!', '{', '}', '(', ')', '[', ']'].contains c

/-- The number of characters by which a plain word goes on. A slash belongs to the word together
with the character behind it, unless the two open a comment or that character ends the word. -/
def plainTail : Text → Nat
  | '/' :: c :: rest => if c == '*' || endsPlain c then 0 else 2 + plainTail rest
  | c :: rest => if c == '/' || endsPlain c then 0 else 1 + plainTail rest
  | [] => 0

/-- The number of characters of the plain word at the front; zero if there is none. Hyphens,
underscores and slashes with the character behind them may precede its first letter. -/
def plainLength : Text → Nat
  | '/' :: c :: rest =>
    if c == '*' || endsPlain c then 0
    else match plainLength rest with
      | 0 => 0
      | n + 1 => n + 3
  | c :: rest =>
    if c.isAlpha then 1 + plainTail rest
    else if c == '-' || c == '_' then
      match plainLength rest with
      | 0 => 0
      | n + 1 => n + 2
    else 0
  | [] => 0

/-! ## Numbers and colours -/

/-- The number of characters of an exponent (`e5`, `E-7`) at the front; zero if there is none. -/
def exponentLength : Text → Nat
  | c :: rest =>
    if c == 'e' || c == 'E' then
      let (sign, digits) := match rest with
        | '-' :: more => (1, (more.takeWhile Char.isDigit).length)
        | _ => (0, (rest.takeWhile Char.isDigit).length)
      if digits = 0 then 0 else 1 + sign + digits
    else 0
  | [] => 0

/-- The number of characters of the unsigned number at the front; zero if there is none. -/
def unsignedLength (t : Text) : Nat :=
  let digits := (t.takeWhile Char.isDigit).length
  let point := match t.drop digits with
    | '.' :: rest =>
      match (rest.takeWhile Char.isDigit).length with
      | 0 => 0
      | n + 1 => n + 2
    | _ => 0
  digits + point + exponentLength (t.drop (digits + point))

/-- The number of characters of the number at the front; zero if there is none. -/
def numberLength (t : Text) : Nat :=
  let sign := match t with
    | '+' :: _ => 1
    | '-' :: _ => 1
    | _ => 0
  match unsignedLength (t.drop sign) with
  | 0 => 0
  | n + 1 => sign + n + 1

/-- A character of a number's unit. -/
def isUnitChar (c : Char) : Bool := c.isAlpha || c == '%'

/-- The number of hexadecimal digits at the front, eight at most; zero if they are too few to be
those of a colour. -/
def colourLength (t : Text) : Nat :=
  let digits := ((t.take 8).takeWhile isHex).length
  if 3 ≤ digits then digits else 0

/-! ## Escapes, comments and strings -/

/-- The number of characters of an escape behind its backslash: up to six hexadecimal digits and
one white space character, or any one character that is neither of these nor ends the line. -/
def escapeLength : Text → Nat
  | [] => 0
  | c :: rest =>
    if isHex c then
      let digits := ((c :: rest).take 6).takeWhile isHex
      match (c :: rest).drop digits.length with
      | d :: _ => if isSheetSpace d then digits.length + 1 else digits.length
      | [] => digits.length
    else if c == '\n' || c == '\r' then 0
    else 1

/-- The number of characters up to the first `*/` and with it. -/
def commentTail : Text → Option Nat
  | [] => none
  | '*' :: '/' :: _ => some 2
  | _ :: rest => (commentTail rest).map (· + 1)

/-- The number of characters of the comment at the front. -/
def commentLength : Text → Option Nat
  | '/' :: '*' :: rest => (commentTail rest).map (· + 2)
  | _ => none

/-- A character that stands for itself in a string. -/
def isQuotable (quote c : Char) : Bool := c != quote && c != '\\' && c != '\n'

/-- The number of characters at the front of a string's text, or of the rest of that text behind an
escape or a line break, that are passed over together: all up to the next quote, escape or line
break. When this stretch begins with a comment, after white space perhaps, and the comment ends
behind it, the stretch goes on to the end of the comment, beyond a quote even. -/
def stretchLength (quote : Char) (t : Text) : Nat :=
  let stretch := t.takeWhile (isQuotable quote)
  let space := (stretch.takeWhile isSheetSpace).length
  match commentLength (t.drop space) with
  | some length => max stretch.length (space + length)
  | none => stretch.length

/-- The number of characters of a string behind its opening quote, the closing quote included. The
second argument counts characters that have been passed over already. -/
def stringTail (quote : Char) : Nat → Text → Option Nat
  | _, [] => none
  | skip + 1, _ :: rest => (stringTail quote skip rest).map (· + 1)
  | 0, c :: rest =>
    if c == quote then some 1
    else if c == '\\' then
      match escapeLength rest with
      | 0 => none
      | n + 1 => (stringTail quote (n + 1) rest).map (· + 1)
    else (stringTail quote (stretchLength quote (c :: rest) - 1) rest).map (· + 1)

end LeadingTrim.Sheet

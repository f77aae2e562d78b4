/-
# Lexemes of a style sheet

The head of a rule, the head of an at-rule and the value of a declaration are read as rows of
lexemes: white space, comments, strings, commas, brackets, and words, which are everything else.
What counts as one word depends on the place of the row where it stands (`Place`).

A row ends before a brace, before a semicolon outside brackets, and at the end of the text.
-/

import LeadingTrim.Sheet.Nesting
import LeadingTrim.Text.Scan

namespace LeadingTrim.Sheet

open Text (isSheetSpace)

/-! ## Rows of lexemes -/

/-- What a lexeme is. -/
inductive Kind
  /-- A run of white space. -/
  | space
  /-- A comment between `/*` and `*/`. -/
  | comment
  /-- A comment from `//` to the end of the line. -/
  | lineComment
  /-- A quoted string. -/
  | string
  /-- A comma outside brackets. -/
  | comma
  /-- A comma or a semicolon inside brackets. -/
  | separator
  /-- An opening bracket. -/
  | opening
  /-- A closing bracket. -/
  | closing
  /-- A name, a number, an operator or another mark. -/
  | word
  /-- A character that begins nothing: a quote or a comment that is never closed. -/
  | stray
  deriving DecidableEq, Repr

/-- A lexeme with its text. -/
abbrev Lexeme := Kind × Text

namespace Lexeme

/-- White space or a comment. -/
def isFiller (l : Lexeme) : Bool :=
  match l.1 with
  | .space | .comment | .lineComment => true
  | _ => false

end Lexeme

/-- The lexeme at the front, if the row goes on. -/
def lexeme (n : Nesting) (c : Char) (rest : Text) : Option (Text.Found Nesting Kind) :=
  if c == '{' || c == '}' then none
  else if c == ';' then
    if n.outer.isEmpty then none else some ⟨.separator, n.behindSeparator, 0⟩
  else if isSheetSpace c then
    some ⟨.space, n.behindSpace (rest.dropWhile isSheetSpace), (rest.takeWhile isSheetSpace).length⟩
  else if c == ',' then
    some ⟨if n.outer.isEmpty then .comma else .separator, n.behindSeparator, 0⟩
  else if c == '(' then some ⟨.opening, n.enterRound, 0⟩
  else if c == '[' then some ⟨.opening, n.enterSquare, 0⟩
  else if c == ')' || c == ']' then
    match n.leave? with
    | none => some ⟨.stray, n, 0⟩
    | some behind => some ⟨.closing, behind, 0⟩
  else if c == '\'' || c == '"' then
    match stringTail c 0 rest with
    | some more => some ⟨.string, n.behindWord .string, more⟩
    | none => some ⟨.stray, n, 0⟩
  else if c == '/' && rest.head? == some '*' then
    match commentLength (c :: rest) with
    | some length => some ⟨.comment, n, length - 1⟩
    | none => some ⟨.stray, n, 0⟩
  else if c == '/' && rest.head? == some '/' && n.place.commentsSlashes (c :: rest) then
    some ⟨.lineComment, n, (rest.takeWhile (· != '\n')).length⟩
  else
    let (word, length) := n.word (c :: rest)
    some ⟨.word, n.behindWord word, length - 1⟩

/-- White space or a comment at the front. -/
def filler (c : Char) (rest : Text) : Option (Text.Found Unit Kind) :=
  if isSheetSpace c then some ⟨.space, (), (rest.takeWhile isSheetSpace).length⟩
  else if c == '/' && rest.head? == some '/' then
    some ⟨.lineComment, (), (rest.takeWhile (· != '\n')).length⟩
  else match commentLength (c :: rest) with
    | some length => some ⟨.comment, (), length - 1⟩
    | none => none

/-- The white space and the comments at the front. -/
def fillers (t : Text) : List Lexeme := Text.scan (fun _ => filler) () 0 t

/-- The row of lexemes that begins at the front, at the given place. -/
def row (p : Place) (t : Text) : List Lexeme := Text.scan lexeme (.start p) 0 t

end LeadingTrim.Sheet

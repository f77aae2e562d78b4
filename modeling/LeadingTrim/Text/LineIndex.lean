/-
# Lines and columns

Source maps speak of lines and columns from zero, and count columns in UTF-16 code units, while
edits speak of byte offsets. An index of the lines of a text leads from one to the other. A line
ends before its line feed, and before a carriage return directly in front of that; the last line
also ends before a carriage return with which the text ends. An offset inside a character counts as
the start of that character, and so does a column inside a surrogate pair.
-/

import LeadingTrim.Text.Basic

namespace LeadingTrim.Text

/-- The offsets behind the line feeds of a text that stands at an offset. -/
def lineStartsFrom : Nat → Text → List Nat
  | _, [] => []
  | offset, c :: rest =>
    let behind := offset + c.utf8Size
    if c = '\n' then behind :: lineStartsFrom behind rest else lineStartsFrom behind rest

/-- The offsets at which lines begin. -/
def lineStarts (t : Text) : List Nat := 0 :: lineStartsFrom 0 t

/-- A line: where it begins, and where it ends without its terminator. -/
structure Line where
  /-- Where the line begins. -/
  start : Nat
  /-- Where its last column ends. -/
  stop : Nat
  deriving DecidableEq, Repr

/-- A text with its lines. -/
structure LineIndex where
  /-- The text. -/
  text : Text
  /-- Its lines. -/
  lines : List Line

/-- The line between two offsets, without a carriage return at its end. -/
def Line.between (t : Text) (start stop : Nat) : Line :=
  if start < stop && (t.slice start stop).getLast? == some '\r' then ⟨start, stop - 1⟩
  else ⟨start, max start stop⟩

/-- The lines that begin at the given offsets. A line ends one byte before the next. -/
def linesAt (t : Text) : List Nat → List Line
  | [] => []
  | [start] => [Line.between t start t.byteSize]
  | start :: next :: rest => Line.between t start (next - 1) :: linesAt t (next :: rest)

/-- The index of a text whose lines begin at the given offsets. -/
def LineIndex.ofStarts (t : Text) (starts : List Nat) : LineIndex := ⟨t, linesAt t starts⟩

/-- The index of a text. -/
def LineIndex.of (t : Text) : LineIndex := .ofStarts t (lineStarts t)

/-- The UTF-16 code units of a character: two beyond U+FFFF, or else one. -/
def utf16Units (c : Char) : Nat := if c.toNat < 0x10000 then 1 else 2

/-- The number of UTF-16 code units of the characters that end within a number of bytes. -/
def columnAt : Text → Nat → Nat
  | [], _ => 0
  | c :: rest, bytes =>
    if c.utf8Size ≤ bytes then utf16Units c + columnAt rest (bytes - c.utf8Size) else 0

/-- The number of bytes of the characters that end within a number of UTF-16 code units. -/
def bytesAt : Text → Nat → Nat
  | [], _ => 0
  | c :: rest, units =>
    if units < utf16Units c then 0 else c.utf8Size + bytesAt rest (units - utf16Units c)

namespace LineIndex

/-- The number of the line that holds an offset; the last line holds all offsets behind it. -/
def lineOf (ix : LineIndex) (offset : Nat) : Nat :=
  (ix.lines.takeWhile fun l => l.start ≤ offset).length - 1

/-- Line and column of an offset. -/
def point (ix : LineIndex) (offset : Nat) : Nat × Nat :=
  let number := ix.lineOf offset
  match ix.lines[number]? with
  | none => (0, 0)
  | some line =>
    let target := min (max offset line.start) line.stop
    (number, columnAt (ix.text.slice line.start line.stop) (target - line.start))

/-- The offset at a line and a column; none if there is no such line. A column behind the end of
the line stands for that end. -/
def offset? (ix : LineIndex) (line column : Nat) : Option Nat :=
  (ix.lines[line]?).map fun l => l.start + bytesAt (ix.text.slice l.start l.stop) column

end LineIndex

end LeadingTrim.Text

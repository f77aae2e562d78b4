/-
# Reading JSON

A text is first cut into tokens, strings and numbers among them, and the tokens then build the
value on a stack of the arrays and objects that are still open. Reading is strict about the form:
one value with nothing but white space around it, no comments, no trailing commas, no control
characters in strings. Whether the value is sound is for its user to say, who may need only a part
of it.
-/

import LeadingTrim.Json.Basic
import LeadingTrim.Text.Scan

namespace LeadingTrim.Json

/-! ## Tokens -/

/-- A token. -/
inductive Token
  /-- One of `[ ] { } : ,`. -/
  | mark (c : Char)
  /-- A complete value: a string, a number or a word. -/
  | value (v : Json)
  /-- White space. -/
  | space
  /-- Text that is no token. -/
  | stray

/-- The number of characters of a string behind its opening quote, the closing one included; the
first argument says that the character before was a backslash that escapes. -/
def stringTail : Bool → Text → Option Nat
  | _, [] => none
  | escaped, c :: rest =>
    if c.toNat < 0x20 then none
    else if escaped then (stringTail false rest).map (· + 1)
    else if c == '"' then some 1
    else (stringTail (c == '\\') rest).map (· + 1)

/-- The value of a hexadecimal digit. -/
def hexValue? (c : Char) : Option Nat :=
  if c.isDigit then some (c.toNat - '0'.toNat)
  else if 'a' ≤ c && c ≤ 'f' then some (c.toNat - 'a'.toNat + 10)
  else if 'A' ≤ c && c ≤ 'F' then some (c.toNat - 'A'.toNat + 10)
  else none

/-- The number that four hexadecimal digits at the front make. -/
def hex4? (t : Text) : Option Nat :=
  if t.length < 4 then none
  else (t.take 4).foldlM (fun n c => (hexValue? c).map (16 * n + ·)) 0

/-- The character of an escape behind its backslash, and the number of characters of the escape
without the backslash. Two escapes of a surrogate pair make one character, and half a pair makes
none. -/
def escape? : Text → Option (Option Char × Nat)
  | '"' :: _ => some ('"', 1)
  | '\\' :: _ => some ('\\', 1)
  | '/' :: _ => some ('/', 1)
  | 'b' :: _ => some (Char.ofNat 8, 1)
  | 'f' :: _ => some (Char.ofNat 12, 1)
  | 'n' :: _ => some ('\n', 1)
  | 'r' :: _ => some ('\r', 1)
  | 't' :: _ => some ('\t', 1)
  | 'u' :: rest =>
    match hex4? rest with
    | none => none
    | some unit =>
      if unit < 0xD800 || 0xDFFF < unit then some (Char.ofNat unit, 5)
      else
        let low? := match rest.drop 4 with
          | '\\' :: 'u' :: more => (hex4? more).filter fun low => 0xDC00 ≤ low && low ≤ 0xDFFF
          | _ => none
        match low? with
        | some low =>
          if unit < 0xDC00 then
            some (Char.ofNat (0x10000 + (unit - 0xD800) * 0x400 + (low - 0xDC00)), 11)
          else some (none, 5)
        | none => some (none, 5)
  | _ => none

/-- What stands at the front of a string's text: a character, half a surrogate pair, or an escape
that is none. -/
inductive Piece
  /-- A character. -/
  | char (c : Char)
  /-- Half a surrogate pair. -/
  | half
  /-- A backslash that escapes nothing. -/
  | stray
  deriving DecidableEq

/-- The character of a piece, if it is one. -/
def Piece.char? : Piece → Option Char
  | .char c => some c
  | _ => none

/-- The piece at the front of a string's text. -/
def stringStep (c : Char) (rest : Text) : Option (Text.Found Unit Piece) :=
  if c == '\\' then
    match escape? rest with
    | some (some d, more) => some ⟨.char d, (), more⟩
    | some (none, more) => some ⟨.half, (), more⟩
    | none => some ⟨.stray, (), 0⟩
  else some ⟨.char c, (), 0⟩

/-- The string whose text between the quotes is given; none if an escape is none. -/
def string? (t : Text) : Option Json :=
  let pieces := (Text.scan (fun _ => stringStep) () 0 t).map Prod.fst
  if pieces.contains .stray then none
  else some (((pieces.mapM Piece.char?).map Json.string).getD .garbled)

/-- The exponent at the front with its length: zero characters if there is none, none if it has no
digits. -/
def exponentAt? (t : Text) : Option (Option Int × Nat) :=
  match t with
  | c :: rest =>
    if c == 'e' || c == 'E' then
      let sign := match rest with
        | '+' :: _ => 1
        | '-' :: _ => 1
        | _ => 0
      let digits := (rest.drop sign).takeWhile Char.isDigit
      (Decimal.exponent? (rest.take sign ++ digits)).map fun e =>
        (some e, 1 + sign + digits.length)
    else some (none, 0)
  | [] => some (none, 0)

/-- The number at the front with its length. -/
def numberAt? (t : Text) : Option (Number × Nat) :=
  let sign := if t.head? == some '-' then 1 else 0
  let whole := (t.drop sign).takeWhile Char.isDigit
  let behind := t.drop (sign + whole.length)
  let fraction := match behind with
    | '.' :: rest => some (rest.takeWhile Char.isDigit)
    | _ => none
  let pointLength := (fraction.map (·.length + 1)).getD 0
  if whole.isEmpty || (whole.head? == some '0' && 1 < whole.length) || fraction == some [] then none
  else (exponentAt? (behind.drop pointLength)).map fun (e, length) =>
    (⟨sign == 1, whole, fraction.getD [], e⟩, sign + whole.length + pointLength + length)

/-- A word at the front, with its value. -/
def wordAt? (t : Text) : Option (Json × Nat) :=
  if Text.startsWith "null".toList t then some (.null, 4)
  else if Text.startsWith "true".toList t then some (.bool true, 4)
  else if Text.startsWith "false".toList t then some (.bool false, 5)
  else none

/-- White space in JSON. -/
def isSpace (c : Char) : Bool := c == ' ' || c == '\t' || c == '\n' || c == '\r'

/-- The token at the front. -/
def token (c : Char) (rest : Text) : Option (Text.Found Unit Token) :=
  if isSpace c then some ⟨.space, (), 0⟩
  else if ['[', ']', '{', '}', ':', ','].contains c then some ⟨.mark c, (), 0⟩
  else if c == '"' then
    match stringTail false rest with
    | some length =>
      match string? (rest.take (length - 1)) with
      | some v => some ⟨.value v, (), length⟩
      | none => some ⟨.stray, (), length⟩
    | none => some ⟨.stray, (), 0⟩
  else match wordAt? (c :: rest) with
    | some (v, length) => some ⟨.value v, (), length - 1⟩
    | none =>
      match numberAt? (c :: rest) with
      | some (n, length) => some ⟨.value (.number n), (), length - 1⟩
      | none => some ⟨.stray, (), 0⟩

/-! ## Values -/

/-- An array or object that is still open, its items the last first. -/
inductive Frame
  /-- An array. -/
  | array (items : List Json)
  /-- An object, with the name of the member that is being read. A garbled name is none. -/
  | object (members : List (Option Text × Json)) (name : Option Text)

/-- What may come next. -/
inductive Expected
  /-- A value. -/
  | value
  /-- A value, or the end of an array. -/
  | valueOrEnd
  /-- The name of a member. -/
  | name
  /-- The name of a member, or the end of an object. -/
  | nameOrEnd
  /-- The colon behind a name. -/
  | colon
  /-- A comma, or the end of the array or object. -/
  | commaOrEnd
  /-- Nothing: the value is complete. -/
  | nothing (v : Json)

/-- The state between two tokens. -/
structure State where
  /-- The open arrays and objects, the innermost first. -/
  stack : List Frame
  /-- What may come next. -/
  expected : Expected

/-- The state behind a complete value. -/
def State.complete (stack : List Frame) (v : Json) : State :=
  match stack with
  | [] => ⟨[], .nothing v⟩
  | .array items :: rest => ⟨.array (v :: items) :: rest, .commaOrEnd⟩
  | .object members name :: rest =>
    ⟨.object ((name, v) :: members) none :: rest, .commaOrEnd⟩

/-- A member with a name that is not garbled. -/
def named? (m : Option Text × Json) : Option (Text × Json) := m.1.map (·, m.2)

/-- The object with the given members; one with a garbled name is garbled. -/
def objectOf (members : List (Option Text × Json)) : Json :=
  ((members.mapM named?).map Json.object).getD .garbled

/-- The state behind one of the marks. -/
def State.mark (s : State) (c : Char) : Option State :=
  match c, s.expected, s.stack with
  | '[', .value, stack | '[', .valueOrEnd, stack => some ⟨.array [] :: stack, .valueOrEnd⟩
  | '{', .value, stack | '{', .valueOrEnd, stack => some ⟨.object [] none :: stack, .nameOrEnd⟩
  | ']', .valueOrEnd, .array items :: rest | ']', .commaOrEnd, .array items :: rest =>
    some (.complete rest (.array items.reverse))
  | '}', .nameOrEnd, .object members _ :: rest | '}', .commaOrEnd, .object members _ :: rest =>
    some (.complete rest (objectOf members.reverse))
  | ',', .commaOrEnd, .array items :: rest => some ⟨.array items :: rest, .value⟩
  | ',', .commaOrEnd, .object members name :: rest => some ⟨.object members name :: rest, .name⟩
  | ':', .colon, stack => some ⟨stack, .value⟩
  | _, _, _ => none

/-- The state behind a token that is a value of its own; a string may also be a name. -/
def State.value (s : State) (v : Json) : Option State :=
  match s.expected, s.stack, v with
  | .value, stack, v | .valueOrEnd, stack, v => some (.complete stack v)
  | .name, .object members _ :: rest, .string t
  | .nameOrEnd, .object members _ :: rest, .string t =>
    some ⟨.object members (some t) :: rest, .colon⟩
  | .name, .object members _ :: rest, .garbled
  | .nameOrEnd, .object members _ :: rest, .garbled =>
    some ⟨.object members none :: rest, .colon⟩
  | _, _, _ => none

/-- The state behind a token. -/
def State.step (s : State) : Token → Option State
  | .space => some s
  | .stray => none
  | .mark c => s.mark c
  | .value v => s.value v

/-- The value that a text is. -/
def parse? (t : Text) : Option Json :=
  match (Text.scan (fun _ => token) () 0 t).foldlM (fun s p => State.step s p.1)
      ⟨[], .value⟩ with
  | some ⟨_, .nothing v⟩ => some v
  | _ => none

end LeadingTrim.Json

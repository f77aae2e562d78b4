/-
# The parts of a style sheet

A style sheet is a flat row of parts: white space, comments, declarations, statements of at-rules,
the heads that open the blocks of rules and at-rules, and the braces that close blocks. No part is
nested in another, and the texts of the parts make up the sheet; which block a part
stands in is read off the heads and closing braces before it.

Whether a name followed by a colon begins a declaration or a selector is not decided by the name.
A selector it is when the raw text behind the colon has an opening brace before the next semicolon
or closing brace.
-/

import LeadingTrim.Sheet.Lexeme

namespace LeadingTrim.Sheet

open Text (isSheetSpace)

/-- A declaration as written: name, what stands between the name and the colon, and everything
behind the colon up to the semicolon. Without a semicolon the value ends at its last lexeme. -/
structure DeclarationText where
  /-- The name of the property. -/
  name : Text
  /-- White space and comments between the name and the colon. -/
  gap : Text
  /-- Everything between the colon and the end. -/
  value : Text
  /-- Whether a semicolon ends the declaration. -/
  terminated : Bool
  deriving DecidableEq, Repr

/-- The declaration's text. -/
def DeclarationText.text (d : DeclarationText) : Text :=
  d.name ++ d.gap ++ [':'] ++ d.value ++ if d.terminated then [';'] else []

/-- A piece of a selector list. -/
inductive SelectorPiece
  /-- One selector of the list. A comment to the end of the line counts as one as well where it
  stands beside a comma. -/
  | branch (text : Text)
  /-- A comma, white space or a comment between two selectors. -/
  | gap (text : Text)
  deriving DecidableEq, Repr

/-- The piece's text. -/
def SelectorPiece.text : SelectorPiece → Text
  | .branch text => text
  | .gap text => text

/-- The head of a style rule: its selector list, then what stands before the opening brace. -/
structure RuleHead where
  /-- The selector list, from its first lexeme to its last. -/
  selectors : List SelectorPiece
  /-- White space and comments before the opening brace. -/
  gap : Text
  deriving DecidableEq, Repr

/-- The text of the selector list. -/
def RuleHead.selector (h : RuleHead) : Text := h.selectors.flatMap SelectorPiece.text

/-- The head's text, the opening brace included. -/
def RuleHead.text (h : RuleHead) : Text := h.selector ++ h.gap ++ ['{']

/-- The head of an at-rule with a block. -/
structure AtHead where
  /-- The keyword with its at sign. -/
  keyword : Text
  /-- Everything between the keyword and the opening brace. -/
  prelude : Text
  deriving DecidableEq, Repr

/-- The head's text, the opening brace included. -/
def AtHead.text (h : AtHead) : Text := h.keyword ++ h.prelude ++ ['{']

/-- A part of a style sheet. -/
inductive Part
  /-- A run of white space. -/
  | space (text : Text)
  /-- A comment between `/*` and `*/`. -/
  | comment (text : Text)
  /-- A comment from `//` to the end of the line. -/
  | lineComment (text : Text)
  /-- A declaration. -/
  | declaration (d : DeclarationText)
  /-- An at-rule without a block, the semicolon included. -/
  | atStatement (text : Text)
  /-- The head of a style rule. -/
  | rule (head : RuleHead)
  /-- The head of an at-rule with a block. -/
  | atBlock (head : AtHead)
  /-- The closing brace of a block. -/
  | close
  /-- Text that is no part of a style sheet. -/
  | stray (text : Text)
  deriving DecidableEq, Repr

/-- The part's text. -/
def Part.text : Part → Text
  | .space text | .comment text | .lineComment text | .atStatement text | .stray text => text
  | .declaration d => d.text
  | .rule head => head.text
  | .atBlock head => head.text
  | .close => ['}']

/-! ## Declarations -/

/-- Whether a colon behind a name begins the value of a declaration, judged by the text behind it.
Directly behind white space a colon that is followed by white space always does; directly behind
anything else an opening brace right behind the colon is passed over. -/
def beginsValue (spaceBefore : Bool) (behind : Text) : Bool :=
  match behind with
  | [] => true
  | c :: rest =>
    if c == ':' then false
    else if spaceBefore then isSheetSpace c || !braceFirst behind
    else c == ';' || c == '}' || !braceFirst rest

/-- A row and the fillers at its end, apart. -/
def splitRow (lexemes : List Lexeme) : List Lexeme × List Lexeme :=
  ((lexemes.reverse.dropWhile Lexeme.isFiller).reverse,
    (lexemes.reverse.takeWhile Lexeme.isFiller).reverse)

/-- The declaration with the given name and gap, whose value begins the text behind the colon. -/
def DeclarationText.read (name gap behind : Text) : DeclarationText :=
  let value := row (.value .value) behind
  let terminated := (behind.drop (Text.texts value).length).head? == some ';'
  ⟨name, gap, Text.texts (if terminated then value else (splitRow value).1), terminated⟩

/-- The declaration at the front, if one begins there. -/
def declaration? (t : Text) : Option DeclarationText :=
  match nameLength t with
  | 0 => none
  | n + 1 =>
    let gap := fillers (t.drop (n + 1))
    match (t.drop (n + 1)).drop (Text.texts gap).length with
    | ':' :: behind =>
      if beginsValue (gap.getLast?.any (·.1 == .space)) behind then
        some (.read (t.take (n + 1)) (Text.texts gap) behind)
      else none
    | _ => none

/-! ## Heads -/

/-- White space or a comment between selectors. -/
def SelectorPiece.ofFiller (l : Lexeme) : SelectorPiece :=
  match l.1 with
  | .lineComment => .branch l.2
  | _ => .gap l.2

/-- The pieces of a selector list. The first argument is the selector that is being read, the
second holds the fillers behind it, which belong to it if it goes on. -/
def selectorPieces : Text → List Lexeme → List Lexeme → List SelectorPiece
  | current, held, [] =>
    (if current.isEmpty then [] else [.branch current]) ++ held.map .ofFiller
  | current, held, l :: rest =>
    if l.isFiller then
      if current.isEmpty then .ofFiller l :: selectorPieces [] [] rest
      else selectorPieces current (held ++ [l]) rest
    else if l.1 = .comma then
      (if current.isEmpty then [] else [.branch current]) ++ held.map .ofFiller
        ++ .gap l.2 :: selectorPieces [] [] rest
    else selectorPieces (current ++ Text.texts held ++ l.2) [] rest

/-- A character of an at-rule's keyword. -/
def isKeywordChar (c : Char) : Bool := c.isAlpha || c == '-' || c == '_'

/-- A keyword whose at-rule holds a list of keyframes: it ends in `keyframes`, with nothing but
small letters and hyphens between that and the at sign. -/
def isKeyframes (keyword : Text) : Bool :=
  let name := keyword.drop 1
  "keyframes".toList.isSuffixOf name && name.all fun c => ('a' ≤ c && c ≤ 'z') || c == '-'

/-- The place behind the keyword of an at-rule. Keywords without a rule of their own may be followed
by values where the at-rule stands in a block. -/
def preludePlace (inBlock : Bool) (keyword : Text) : Place :=
  if keyword == "@import".toList then .value .query
  else if keyword == "@charset".toList then .value .nothing
  else if keyword == "@namespace".toList then .namespaceRule
  else if ["@media", "@supports"].any (·.toList == keyword) || isKeyframes keyword then .query
  else if inBlock then .either .value
  else .query

/-- The at-rule at the front; the text starts behind the at sign. -/
def atPart (inBlock : Bool) (rest : Text) : Part :=
  let keyword := '@' :: rest.takeWhile isKeywordChar
  let behind := rest.dropWhile isKeywordChar
  let prelude := Text.texts (row (preludePlace inBlock keyword) behind)
  match (behind.drop prelude.length).head? with
  | some '{' => .atBlock ⟨keyword, prelude⟩
  | some ';' => .atStatement (keyword ++ prelude ++ [';'])
  | _ => .stray (keyword ++ prelude)

/-- The head of a style rule at the front, or else the text that no rule begins with. -/
def rulePart (c : Char) (rest : Text) : Part :=
  let lexemes := row .selector (c :: rest)
  let length := (Text.texts lexemes).length
  match ((c :: rest).drop length).head?, lexemes with
  | _, [] => .stray [c]
  | some '{', _ =>
    let (list, gap) := splitRow lexemes
    .rule ⟨selectorPieces [] [] list, Text.texts gap⟩
  | some ';', _ => .stray (Text.texts lexemes ++ [';'])
  | _, _ => .stray (Text.texts lexemes)

/-! ## The parts of a sheet -/

/-- The number of open blocks behind a part. -/
def Part.depthBehind (depth : Nat) : Part → Nat
  | .rule _ | .atBlock _ => depth + 1
  | .close => depth - 1
  | _ => depth

/-- The part at the front, in the given number of open blocks. -/
def part (depth : Nat) (c : Char) (rest : Text) : Part :=
  match filler c rest with
  | some found =>
    let text := c :: rest.take found.more
    match found.kind with
    | .space => .space text
    | .lineComment => .lineComment text
    | _ => .comment text
  | none =>
    if c == '}' then .close
    else if c == '@' then atPart (0 < depth) rest
    else match declaration? (c :: rest) with
      | some d => .declaration d
      | none => rulePart c rest

/-- The part at the front, as a step that is always taken. -/
def partStep (depth : Nat) (c : Char) (rest : Text) : Option (Text.Found Nat Part) :=
  let p := part depth c rest
  some ⟨p, p.depthBehind depth, p.text.length - 1⟩

/-- The parts of a text. -/
def partsOf (t : Text) : List Part := (Text.scan partStep 0 0 t).map Prod.fst

/-- The byte order mark. -/
def byteOrderMark : Char := '\uFEFF'

/-- The parts of a style sheet. A byte order mark at its start is white space. -/
def parts : Text → List Part
  | [] => []
  | c :: rest => if c == byteOrderMark then .space [c] :: partsOf rest else partsOf (c :: rest)

end LeadingTrim.Sheet

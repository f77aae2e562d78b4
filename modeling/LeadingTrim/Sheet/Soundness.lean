/-
# Sound style sheets

A style sheet is *sound* when its parts fit together: every block is closed and no other brace is
there, every declaration has a value and ends with a semicolon or the block around it, brackets and
quotes are closed, commas stand between two things, the heads of rules are selectors, an equals sign
in a selector stands in brackets, no colon is directly in front of a brace, and no text is left
over.
-/

import LeadingTrim.Sheet.Part

namespace LeadingTrim.Sheet

/-- Whether a row of lexemes is sound. The arguments are the number of open brackets and whether
something stands in front of the row that a comma can follow. -/
def isSoundRow : Nat → Bool → List Lexeme → Bool
  | depth, item, [] => depth == 0 && item
  | depth, item, (kind, _) :: rest =>
    match kind with
    | .space | .comment | .lineComment => isSoundRow depth item rest
    | .comma => item && isSoundRow depth false rest
    | .separator | .string | .word => isSoundRow depth true rest
    | .opening => isSoundRow (depth + 1) true rest
    | .closing => 0 < depth && isSoundRow (depth - 1) true rest
    | .stray => false

/-- Whether an equals sign stands outside brackets. The argument is the number of open brackets. -/
def hasBareEquals : Nat → List Lexeme → Bool
  | _, [] => false
  | depth, (kind, text) :: rest =>
    match kind with
    | .opening => hasBareEquals (depth + 1) rest
    | .closing => hasBareEquals (depth - 1) rest
    | .word => (depth == 0 && text == ['=']) || hasBareEquals depth rest
    | _ => hasBareEquals depth rest

/-- The row behind the keyword of an at-rule; the text starts with the at sign. -/
def preludeRow (inBlock : Bool) (t : Text) : List Lexeme :=
  let behind := t.drop 1
  row (preludePlace inBlock ('@' :: behind.takeWhile isKeywordChar))
    (behind.dropWhile isKeywordChar)

/-- Whether the row that a part begins with or holds is sound where it stands. The text starts with
the part. -/
def Part.hasSoundRow (inBlock : Bool) (t : Text) : Part → Bool
  | .declaration d =>
    isSoundRow 0 false (row (.value .value) (t.drop (d.name ++ d.gap ++ [':']).length))
  | .rule head =>
    isSoundRow 0 false (row .selector t) && !hasBareEquals 0 (row .selector t)
      && (head.selector ++ head.gap).getLast? != some ':'
  | .atStatement _ | .atBlock _ => isSoundRow 0 true (preludeRow inBlock t)
  | _ => true

/-- Whether the sheet behind is sound, with the given number of open blocks. The second argument
says that a declaration without a semicolon stands in front, so that the block has to end. The text
is that of the parts. -/
def isSoundFrom : Nat → Bool → Text → List Part → Bool
  | depth, ended, _, [] => depth == 0 && !ended
  | depth, ended, t, p :: rest =>
    let behind := t.drop p.text.length
    p.hasSoundRow (0 < depth) t &&
    match p with
    | .space _ | .comment _ | .lineComment _ => isSoundFrom depth ended behind rest
    | .declaration d => !ended && isSoundFrom depth (!d.terminated) behind rest
    | .atStatement _ => !ended && isSoundFrom depth false behind rest
    | .rule _ | .atBlock _ => !ended && isSoundFrom (depth + 1) false behind rest
    | .close => 0 < depth && isSoundFrom (depth - 1) false behind rest
    | .stray _ => false

/-! ## Selectors -/

/-- What has to come next in a list of selectors. -/
inductive Awaited
  /-- Nothing: a selector is complete. -/
  | nothing
  /-- A selector. -/
  | selector
  /-- A name. -/
  | name
  deriving DecidableEq, Repr

/-- What has to come behind a word, if the word can stand where something is awaited. -/
def Awaited.behindWord? (a : Awaited) (text : Text) : Option Awaited :=
  let isOneOf (marks : List String) : Bool := marks.any (·.toList == text)
  if 0 < nameLength text || text.head? == some '\\' then some .nothing
  else if a = .name then none
  else if isOneOf ["*", "&"] then some .nothing
  else if isOneOf [".", "#", ":", "::"] then some .name
  else if isOneOf [">", "+", "~", "|"] then some .selector
  else none

/-- Whether a row of lexemes goes on as a list of selectors. The arguments are what is awaited and
the number of open brackets, in which anything may stand. -/
def areSelectors : Awaited → Nat → List Lexeme → Bool
  | a, _, [] => a == .nothing
  | a, 0, (kind, text) :: rest =>
    match kind with
    | .space | .comment | .lineComment => areSelectors a 0 rest
    | .comma => a == .nothing && areSelectors .selector 0 rest
    | .string => a != .name && areSelectors .nothing 0 rest
    | .opening => a != .name && areSelectors .nothing 1 rest
    | .word => (a.behindWord? text).any fun b => areSelectors b 0 rest
    | .separator | .closing | .stray => false
  | a, depth + 1, (kind, _) :: rest =>
    match kind with
    | .opening => areSelectors a (depth + 2) rest
    | .closing => areSelectors a depth rest
    | _ => areSelectors a (depth + 1) rest

/-- Whether the heads of all rules are lists of selectors. The first argument says of each open
block, the innermost first, whether it is a list of keyframes, in which the heads are others. -/
def haveSelectors : List Bool → List Part → Bool
  | _, [] => true
  | blocks, p :: rest =>
    match p with
    | .rule head =>
      (blocks.head? == some true || areSelectors .selector 0 (row .selector head.text))
        && haveSelectors (false :: blocks) rest
    | .atBlock head => haveSelectors (isKeyframes head.keyword :: blocks) rest
    | .close => haveSelectors blocks.tail rest
    | _ => haveSelectors blocks rest

/-- Whether a style sheet is sound. -/
def isSound (source : Text) : Bool :=
  isSoundFrom 0 false source (parts source) && haveSelectors [] (parts source)

theorem isSoundFrom_of_isSound {source : Text} (h : isSound source = true) :
    isSoundFrom 0 false source (parts source) = true :=
  (Bool.and_eq_true_iff.mp h).1

end LeadingTrim.Sheet

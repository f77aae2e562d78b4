/-
# From place to place

The state between two lexemes of a row holds the place of the next word and, for each open bracket,
the place behind it. What a name or a string at the start of an argument leaves open, and what the
keyword of an at-rule in a block leaves open, is settled by what comes next; brackets that were
opened in between are settled with it.
-/

import LeadingTrim.Sheet.Place

namespace LeadingTrim.Sheet

open Text (isSheetSpace)

/-- Whether an opening brace comes before the next semicolon or closing brace. -/
def braceFirst : Text → Bool
  | [] => false
  | c :: rest => c == '{' || (c != ';' && c != '}' && braceFirst rest)

/-- Whether white space before the text can join two selectors. -/
def joinsSelectors : Text → Bool
  | [] => false
  | c :: rest =>
    c.isAlphanum || ['#', '.', '[', '-', '*'].contains c
      || (c == ':' && !rest.head?.any isSheetSpace && braceFirst rest)

/-- What can stand behind a word or a comment only with no white space directly before it. -/
inductive Attached
  /-- The unit of a number. -/
  | unit
  /-- The digits of a colour. -/
  | digits
  /-- The arguments of a name, which begin at the given place. -/
  | arguments (inside : Place)
  deriving DecidableEq, Repr

/-- The state between two lexemes of a row. -/
structure Nesting where
  /-- The place of the next word. -/
  place : Place
  /-- The place behind the next comma or semicolon. -/
  base : Place
  /-- What can be attached to the word before. -/
  attached : Option Attached
  /-- The place behind each open bracket with the place behind a comma there, the innermost bracket
  first. -/
  outer : List (Place × Place)

namespace Nesting

/-- The state at the start of a row. -/
def start (p : Place) : Nesting := ⟨p, p.base, none, []⟩

/-- Another place. -/
def goto (n : Nesting) (p : Place) : Nesting := { n with place := p, attached := none }

/-- Another place, with what can be attached to the word before it. -/
def attach (n : Nesting) (p : Place) (attached : Attached) : Nesting :=
  { n with place := p, attached := some attached }

/-! ## Conditions and values -/

/-- A value it is that a condition or a value turns out to be. -/
def settleValue (n : Nesting) : Nesting :=
  { n with outer := n.outer.map fun
      | (.either next, base) => (.behindValue next, base)
      | entry => entry }

/-- A condition it is that a condition or a value turns out to be. -/
def settleQuery (n : Nesting) : Nesting :=
  { n with outer := n.outer.map fun
      | (.either _, base) => (.behindQuery, base)
      | entry => entry }

/-- What nothing has settled up to a comma or the end of the bracket is a condition. -/
def settle (n : Nesting) : Nesting :=
  match n.place with
  | .either _ | .openEither _ => n.settleQuery
  | _ => n

/-! ## Words -/

/-- The pseudo-classes whose arguments are selectors. -/
def selectorFunctions : List Text :=
  ["has", "not", "is", "where", "host", "host-context", "nth-child", "nth-last-child"].map
    String.toList

/-- The state behind a name in a condition. -/
def behindQueryName (n : Nesting) (name : Text) : Nesting :=
  n.goto (
    if name == "selector".toList then .selectorQuery
    else if conditionWords.contains name then .query
    else .behindQuery)

/-- The state behind a name. -/
def behindName (n : Nesting) (name : Text) : Nesting :=
  match n.place with
  | .selector | .hashArgument => n.goto .selector
  | .pseudoClass =>
    n.attach .pseudoName
      (.arguments (if selectorFunctions.contains name then .selector else .argument))
  | .pseudoName => n.attach .pseudoName (.arguments .argument)
  | .pseudoElement => n.attach .selector (.arguments .argument)
  | .argument => n.attach .openArgument (.arguments (.value .value))
  | .openArgument => n.attach (.behindValue .value) (.arguments (.value .value))
  | .query | .behindValue .query => n.behindQueryName name
  | .value next | .behindValue next => n.attach (.behindValue next) (.arguments (.value .value))
  | .behindQuery => n.goto .query
  | .selectorQuery => n.goto .selectorQuery
  | .either next =>
    if conditionWords.contains name then n.settleQuery.behindQueryName name
    else n.attach (.openEither next) (.arguments (.value .value))
  | .openEither next =>
    if name == "and".toList || name == "or".toList then n.settleQuery.goto .query
    else n.settleValue.attach (.behindValue next) (.arguments (.value .value))
  | .namespaceRule => n.attach .namespaceRule (.arguments (.value .value))

/-- The state behind a value. -/
def behindValue (n : Nesting) : Nesting :=
  match n.place with
  | .argument | .openArgument | .hashArgument => n.goto (.behindValue .value)
  | .value next | .behindValue next => n.goto (.behindValue next)
  | .either next | .openEither next => n.settleValue.goto (.behindValue next)
  | .pseudoClass | .pseudoName | .pseudoElement => n.goto .selector
  | p => n.goto p

/-- The state behind a mark in a selector. -/
def behindSelectorMark (n : Nesting) (mark : Text) : Nesting :=
  n.goto (match mark with
    | [':'] => .pseudoClass
    | [':', ':'] => .pseudoElement
    | ['='] => .value .nothing
    | _ => .selector)

/-- The state behind a mark. -/
def behindMark (n : Nesting) (mark : Text) : Nesting :=
  match n.place, mark with
  | .argument, ['#'] => n.attach .hashArgument .digits
  | .openArgument, ['*'] | .openArgument, ['/'] | .openArgument, ['-'] => n.goto (.value .value)
  | .value next, ['#'] | .behindValue next, ['#'] => n.attach (.value next) .digits
  | .either next, ['#'] | .openEither next, ['#'] => n.settleValue.attach (.value next) .digits
  | .value next, _ | .behindValue next, _ => n.goto (.value next)
  | .query, _ => n.goto .query
  | .behindQuery, [':'] => n.goto (.value .value)
  | .behindQuery, _ => n.goto .behindQuery
  | .selectorQuery, _ => n.goto .selectorQuery
  | .either next, _ => n.goto (.either next)
  | .openEither _, [':'] => n.settleQuery.goto (.value .value)
  | .openEither next, _ => n.settleValue.goto (.value next)
  | .namespaceRule, _ => n.goto .namespaceRule
  | _, mark => n.behindSelectorMark mark

/-- The state behind a word. -/
def behindWord (n : Nesting) : Word → Nesting
  | .name text => n.behindName text
  | .number => { n.behindValue with attached := some .unit }
  | .value => n.behindValue
  | .string => if n.place = .argument then n.goto .openArgument else n.behindValue
  | .mark text => n.behindMark text

/-- The word at the front with its number of characters. -/
def word (n : Nesting) (t : Text) : Word × Nat :=
  let attached := match n.attached with
    | some .unit => unitLength n.place.next t
    | some .digits => digitsLength n.place t
    | _ => 0
  if 0 < attached then (.value, attached) else n.place.word t

/-! ## Space and brackets -/

/-- The state behind white space, which is followed by the given text. White space joins two
selectors if a selector can begin with what follows. It parts a word from what can be attached to
it, but not where a comment follows. -/
def behindSpace (n : Nesting) (rest : Text) : Nesting :=
  let joins := (n.place = .openArgument || n.place = .pseudoName) && joinsSelectors rest
  if joins then n.goto .selector
  else if (commentLength rest).isSome then n
  else n.goto n.place

/-- The state behind a comma or a semicolon in a row. -/
def behindSeparator (n : Nesting) : Nesting := n.settle.goto n.base

/-- The state inside a bracket that leads to a place, with another place behind the bracket. -/
def enter (n : Nesting) (inside behind : Place) : Nesting :=
  ⟨inside, inside.base, none, (behind, n.base) :: n.outer⟩

/-- The state inside a round bracket that holds the arguments of the name before it. -/
def enterArguments (n : Nesting) (inside : Place) : Nesting :=
  match n.place with
  | .pseudoName => n.enter inside .selector
  | .openArgument => n.enter inside (.behindValue .value)
  | .openEither next => n.settleValue.enter inside (.behindValue next)
  | p => n.enter inside p

/-- The state inside another round bracket. -/
def enterGroup (n : Nesting) : Nesting :=
  match n.place with
  | .argument | .openArgument => n.enter (.value .nothing) (.behindValue .value)
  | .query | .behindValue .query => n.enter .query .behindQuery
  | .value next | .behindValue next => n.enter (.value .nothing) (.behindValue next)
  | .selectorQuery => n.enter .selector .behindQuery
  | .either next => n.enter (.either .nothing) (.either next)
  | .openEither next => n.settleValue.enter (.value .nothing) (.behindValue next)
  | _ => n.enter .selector .selector

/-- The state inside a round bracket. -/
def enterRound (n : Nesting) : Nesting :=
  match n.attached with
  | some (.arguments inside) => n.enterArguments inside
  | _ => n.enterGroup

/-- The state inside a square bracket: the name of an attribute, or the values of a grid. -/
def enterSquare (n : Nesting) : Nesting :=
  match n.place with
  | .value next | .behindValue next => n.enter (.value .nothing) (.behindValue next)
  | .either next | .openEither next =>
    n.settleValue.enter (.value .nothing) (.behindValue next)
  | _ => n.enter .selector .selector

/-- The state behind a closing bracket, unless no bracket is open. -/
def leave? (n : Nesting) : Option Nesting :=
  match n.settle.outer with
  | [] => none
  | (place, base) :: outer => some ⟨place, base, none, outer⟩

end Nesting

end LeadingTrim.Sheet

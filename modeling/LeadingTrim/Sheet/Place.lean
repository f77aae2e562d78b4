/-
# Places of a row

What is read as one word depends on where it stands. In a value a plain word may hold dots, colons,
quotes and slashes (`http://a/b` is one word), while in a selector or in the condition of an
at-rule a word is a name, an escape or a single mark. A *place* says what may come next
(`Place.word`); how one word leads to the place of the next is told by `Nesting`.

Two places leave open what they hold: an argument of `:name(...)` is a selector or a row of values,
and what stands behind the keyword of an at-rule in a block is a condition or a row of values.
-/

import LeadingTrim.Sheet.Word

namespace LeadingTrim.Sheet

/-- What may stand behind a value, apart from an operator. -/
inductive Follow
  /-- Another value. -/
  | value
  /-- The condition of an at-rule. -/
  | query
  /-- Nothing. -/
  | nothing
  deriving DecidableEq, Repr

/-- A place in a row. -/
inductive Place
  /-- In a selector, or in the brackets of an attribute before its value. -/
  | selector
  /-- Behind the colon of a pseudo-class. -/
  | pseudoClass
  /-- In the name of a pseudo-class, which may be written in several pieces. -/
  | pseudoName
  /-- Behind the colons of a pseudo-element. -/
  | pseudoElement
  /-- Where an argument begins that is a selector or a row of values. -/
  | argument
  /-- Behind a name or a string at the start of such an argument. -/
  | openArgument
  /-- Behind a hash mark at the start of such an argument. -/
  | hashArgument
  /-- Where a value stands. -/
  | value (next : Follow)
  /-- Behind a value. -/
  | behindValue (next : Follow)
  /-- Where the condition of an at-rule stands. -/
  | query
  /-- Behind a condition. -/
  | behindQuery
  /-- Behind the word `selector` in a condition. -/
  | selectorQuery
  /-- Where a condition or a value begins. -/
  | either (next : Follow)
  /-- Behind a name that is a condition or a value. -/
  | openEither (next : Follow)
  /-- In the head of the at-rule that declares a namespace. -/
  | namespaceRule
  deriving DecidableEq, Repr

namespace Place

/-- The place behind a comma or a semicolon, where a row or a bracket begins at the given place. -/
def base : Place → Place
  | value .query | either _ => query
  | p => p

/-- Whether numbers and plain words are read as values. -/
def readsValues : Place → Bool
  | argument | openArgument | value _ | behindValue .value | either _ | openEither .value => true
  | _ => false

/-- Whether a slash is always an operator. -/
def divides : Place → Bool
  | behindValue .query | behindValue .nothing | openEither .nothing => true
  | _ => false

/-- What may stand behind a value at the place. -/
def next : Place → Follow
  | argument | openArgument | hashArgument => .value
  | value f | behindValue f | either f | openEither f => f
  | _ => .nothing

/-- Whether two slashes at the front open a comment to the end of the line. They do not where a
slash is an operator, nor where they begin a plain word, unless a slash that does not belong to the
word stands directly behind it. -/
def commentsSlashes (p : Place) (t : Text) : Bool :=
  if p.readsValues then
    plainLength t = 0 || (t.drop (plainLength t)).head? == some '/'
  else !p.divides

end Place

/-! ## Words -/

/-- A word. -/
inductive Word
  /-- A name or an escape. -/
  | name (text : Text)
  /-- A number without its unit. -/
  | number
  /-- `!important`, the unit of a number, the digits of a colour, or a plain word that is neither a
  name nor a number. -/
  | value
  /-- A quoted string. -/
  | string
  /-- An operator or another mark. -/
  | mark (text : Text)
  deriving DecidableEq, Repr

/-- The mark at the front: two colons, or any one character. -/
def markText : Text → Text
  | ':' :: ':' :: _ => [':', ':']
  | t => t.take 1

/-- The number of characters of the name at the front; zero if no name is looked for. Behind a
condition that is all of the names `and` and `or`, and what stands behind these is a new word. -/
def nameLengthAt (p : Place) (t : Text) : Nat :=
  match p with
  | .behindValue .nothing => 0
  | .behindQuery | .openEither .nothing =>
    if Text.startsWith "and".toList t then 3 else if Text.startsWith "or".toList t then 2 else 0
  | _ => nameLength t

/-- The name, the escape or the mark at the front with its number of characters. -/
def nameOrMark (p : Place) (t : Text) : Word × Nat :=
  match nameLengthAt p t, t with
  | 0, '\\' :: rest => (.name ['\\'], 1 + escapeLength rest)
  | 0, _ => (.mark (markText t), (markText t).length)
  | n + 1, _ => (.name (t.take (n + 1)), n + 1)

/-- The word at the front with its number of characters. Where values are read the longest of a
number, a name and a plain word is taken, of equally long ones the first of these. -/
def Place.word (p : Place) (t : Text) : Word × Nat :=
  let number := numberLength t
  let name := nameLength t
  let plain := plainLength t
  if !p.readsValues then nameOrMark p t
  else if 0 < number && name ≤ number && plain ≤ number then (.number, number)
  else if name < plain then (.value, plain)
  else if Text.startsWith "!important".toList t then (.value, "!important".length)
  else nameOrMark p t

/-! ## What is attached to a word -/

/-- The words that may stand in front of a condition. -/
def conditionWords : List Text := ["selector", "not", "only"].map String.toList

/-- The number of characters of the unit at the front. Behind a number there is no unit if a longer
word that may follow the number stands there, or a word that begins a condition. -/
def unitLength (next : Follow) (t : Text) : Nat :=
  let unit := t.takeWhile isUnitChar
  let isWord : Bool := match next with
    | .value => unit.length < max (nameLength t) (plainLength t)
    | .query => unit.length < nameLength t || conditionWords.contains unit
    | .nothing => false
  if isWord then 0 else unit.length

/-- The number of characters of the digits of a colour at the front. Where a hash mark may also
begin a selector a longer name is no colour. -/
def digitsLength (p : Place) (t : Text) : Nat :=
  if p = .hashArgument ∧ colourLength t < nameLength t then 0 else colourLength t

end LeadingTrim.Sheet

/-
# Values without their comments

A comment in a value is left out if white space or an end of the value is beside it. A comment
between two other characters stays, since taking it away would join them. Quoted text is kept as
it is.
-/

import LeadingTrim.Sheet.Word
import LeadingTrim.Text.Scan

namespace LeadingTrim.Sheet

open Text (isBlank)

/-- The state between two pieces of a value. -/
structure ValueState where
  /-- The quote of the string that is being read. -/
  quote : Option Char
  /-- The character directly before. -/
  before : Option Char

/-- Whether nothing or a blank stands there. -/
def isOpen (c : Option Char) : Bool := c.all isBlank

/-- The piece of a value at the front, and whether it is kept. -/
def valuePiece (s : ValueState) (c : Char) (rest : Text) : Option (Text.Found ValueState Bool) :=
  match s.quote with
  | some q =>
    if c == '\\' then some ⟨true, ⟨some q, some c⟩, 1⟩
    else some ⟨true, ⟨if c == q then none else some q, some c⟩, 0⟩
  | none =>
    if c == '"' || c == '\'' then some ⟨true, ⟨some c, some c⟩, 0⟩
    else if c == '/' && rest.head? == some '*' then
      let more := match commentLength (c :: rest) with
        | some length => length - 1
        | none => rest.length
      let kept := !(isOpen s.before || isOpen (rest.drop more).head?)
      some ⟨kept, ⟨none, some '/'⟩, more⟩
    else some ⟨true, ⟨none, some c⟩, 0⟩

/-- The value without the comments that have white space or an end beside them. -/
def stripComments (t : Text) : Text :=
  Text.texts ((Text.scan valuePiece ⟨none, none⟩ 0 t).filter Prod.fst)

end LeadingTrim.Sheet

/-
# Lists of font families

A family name is quoted, or it is a row of words. The value of a declaration is split at the commas
outside quotes and parentheses, empty entries are dropped, and the words of an unquoted name are
joined by single spaces. The list in a directive is read more simply: it is split at every comma,
and each entry is taken as it stands, without surrounding blanks and quotes.
-/

import LeadingTrim.Text.Blank
import LeadingTrim.Text.TopLevel

namespace LeadingTrim.Font

/-- The text between a pair of equal quotes around the whole text, if there is one. -/
def quoted? (t : Text) : Option Text :=
  match t with
  | [] => none
  | q :: rest =>
    if Text.isQuote q && rest.getLast? == some q then some rest.dropLast else none

/-- The text without a pair of equal quotes around it. -/
def unquote (t : Text) : Text := (quoted? t).getD t

/-- The families in a directive. -/
def directiveFamilies (t : Text) : List Text :=
  (Text.splitOn ',' t).map fun entry => unquote entry.trim

/-- Commas outside quotes and parentheses. -/
def commas : Text.Splitter := ⟨(· == '('), (· == ')'), (· == ',')⟩

/-- The name that an entry of a family list gives. -/
def familyName (entry : Text) : Text :=
  (quoted? entry).getD (Text.joinWith [' '] entry.words)

/-- The families in the value of a declaration. -/
def families (t : Text) : List Text :=
  (((commas.split t).map fun piece => Text.trim piece.1).filter fun entry => !entry.isEmpty).map
    familyName

end LeadingTrim.Font

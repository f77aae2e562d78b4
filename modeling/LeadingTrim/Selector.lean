/-
# Pseudo-elements behind selectors

A pseudo-element is put behind every selector of a list. Where the selectors stand is known from
the style sheet; of a list alone it is found out by its commas.
-/

import LeadingTrim.Text.Blank
import LeadingTrim.Text.TopLevel

namespace LeadingTrim.Selector

/-- Commas outside quotes, parentheses and square brackets. -/
def commas : Text.Splitter :=
  ⟨fun c => c == '(' || c == '[', fun c => c == ')' || c == ']', (· == ',')⟩

/-- A selector with a pseudo-element, in front of the blanks at its end. -/
def withPseudo (pseudo selector : Text) : Text :=
  selector.trimEnd ++ pseudo ++ selector.drop selector.trimEnd.length

/-- The selector list with a pseudo-element behind each selector, found out by the commas. -/
def appendAtCommas (list pseudo : Text) : Text :=
  Text.joinWith [','] ((commas.split list).map fun piece => withPseudo pseudo piece.1)

/-- The text from an offset on, with the pseudo-element at the end of each of the given ranges. -/
def appendFrom (list pseudo : Text) : Nat → List (Nat × Nat) → Text
  | cursor, [] => list.dropBytes cursor
  | cursor, (_, stop) :: rest =>
    list.slice cursor stop ++ pseudo ++ appendFrom list pseudo stop rest

/-- The selector list with a pseudo-element behind each selector. The selectors are given by where
they begin and end; if none is given, the commas tell. -/
def append (list : Text) (branches : List (Nat × Nat)) (pseudo : Text) : Text :=
  if branches.isEmpty then appendAtCommas list pseudo else appendFrom list pseudo 0 branches

end LeadingTrim.Selector

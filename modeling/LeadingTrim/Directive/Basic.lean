/-
# Directives

A directive asks for the space above or below a block of text to be taken away:

    [outside] (before | after | both) [<number>[<unit>]] [<family>[, <family>...]]
-/

import LeadingTrim.LineHeight

namespace LeadingTrim

/-- Where the space is taken away. -/
inductive Scope
  /-- Inside the box, by generated boxes before and behind its content. -/
  | inside
  /-- Outside the box, by its margins. -/
  | outside
  deriving DecidableEq, Repr

/-- The scope that an optional keyword asks for; without a keyword it is the inside. -/
def Scope.ofKeyword? : Option Text → Option Scope
  | none => some .inside
  | some keyword =>
    if keyword = "inside".toList then some .inside
    else if keyword = "outside".toList then some .outside
    else none

/-- At which edges of the text the space is taken away. -/
inductive Placement
  /-- Above the text. -/
  | before
  /-- Below the text. -/
  | after
  /-- At both edges. -/
  | both
  deriving DecidableEq, Repr

namespace Placement

/-- The keyword. -/
def keyword : Placement → Text
  | before => "before".toList
  | after => "after".toList
  | both => "both".toList

/-- Whether the upper edge is meant. -/
def hasBefore : Placement → Bool
  | before | both => true
  | after => false

/-- Whether the lower edge is meant. -/
def hasAfter : Placement → Bool
  | after | both => true
  | before => false

/-- The placement that means exactly the given edges, if any is given. -/
def ofEdges? : (before after : Bool) → Option Placement
  | true, true => some both
  | true, false => some before
  | false, true => some after
  | false, false => none

end Placement

/-- A directive. -/
structure Directive where
  /-- Where the space is taken away. -/
  scope : Scope
  /-- At which edges. -/
  placement : Placement
  /-- The line height to reckon with instead of the surrounding one. -/
  lineHeight : Option LineHeight
  /-- The families to reckon with instead of the surrounding ones. -/
  fontFamily : Option (List Text)

end LeadingTrim

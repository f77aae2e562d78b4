/-
# The edits of a directive

    scope    placement  what is written
    outside  before     the declaration becomes `margin-top: <before>`
    outside  after      the declaration becomes `margin-bottom: <after>`
    outside  both       both, one behind the other
    inside   before     a rule for `::before` with `margin-bottom: <before>` behind the rule
    inside   after      a rule for `::after` with `margin-top: <after>` behind the rule
    inside   both       both rules

Inside, the declaration is removed together with the white space in front of it. An edge that needs
no margin is left out, and a declaration that needs none is removed. What is written comes from the
start of the declaration.
-/

import LeadingTrim.Edit.Basic
import LeadingTrim.Metrics.Offset
import LeadingTrim.Selector
import LeadingTrim.Sheet.Rule

namespace LeadingTrim.Correction

open Sheet (Declaration Rule)

/-- The removal of a declaration with the white space in front of it. -/
def remove (d : Declaration) : Edit := .delete d.leadingStart d.stop

/-- A margin in place of a declaration. -/
def margin (d : Declaration) (side value : Text) : Text :=
  "margin-".toList ++ side ++ d.separator ++ value

/-- The margins in place of a declaration. -/
def marginText (source : Text) (d : Declaration) (p : Placement) (o : Offsets) : Text :=
  let top := margin d "top".toList o.before
  let bottom := margin d "bottom".toList o.after
  (match p with
    | .before => top
    | .after => bottom
    | .both => top ++ ';' :: d.leading source ++ bottom)
  ++ if d.terminated then [';'] else []

/-- The line break of a style sheet: that of its first line. -/
def lineBreak (source : Text) : Text :=
  if source.contains '\n' && (source.takeWhile (· != '\n')).getLast? == some '\r' then ['\r', '\n']
  else ['\n']

/-- A rule for a pseudo-element, on a line of its own. -/
def pseudoRule (newline : Text) (r : Rule) (pseudo side value : Text) : Text :=
  newline ++ r.indent ++ Selector.append r.selector r.branches pseudo
    ++ " \x7bdisplay: table;content: \"\";margin-".toList ++ side ++ ": ".toList ++ value
    ++ ";\x7d".toList

/-- The rules for pseudo-elements behind a rule. -/
def pseudoRules (source : Text) (r : Rule) (p : Placement) (o : Offsets) : Text :=
  let newline := lineBreak source
  (if p.hasBefore then pseudoRule newline r "::before".toList "bottom".toList o.before else [])
  ++ if p.hasAfter then pseudoRule newline r "::after".toList "top".toList o.after else []

/-- The edits of a directive with the given margins. -/
def edits (source : Text) (r : Rule) (d : Declaration) (scope : Scope) (p : Placement)
    (o : Offsets) : List Edit :=
  match o.placement? p with
  | none => [remove d]
  | some p =>
    match scope with
    | .outside => [.synthesize d.start d.stop (marginText source d p o) d.start]
    | .inside => [remove d, .synthesize r.stop r.stop (pseudoRules source r p o) d.start]

end LeadingTrim.Correction

/-
# Metrics and margins of a directive

The metrics that apply to a directive are those of the first known family among its own, or else
among those of its rule, and the default family; and the line height that applies. They give the
margins that take the space away: half of what the line height adds, and the space of the font,
both negative.
-/

import LeadingTrim.Directive.Basic
import LeadingTrim.Font.Ambient
import LeadingTrim.Metrics.FontTable

namespace LeadingTrim

/-- What the margins of a directive are reckoned from. -/
structure Metrics where
  /-- The space of the font. -/
  space : Space
  /-- The line height in normal form. -/
  lineHeight : LineHeight

/-- The metrics that apply to a directive. -/
def Metrics.resolve (d : Directive) (ambient : Font.Ambient) (table : FontTable)
    (defaultFamily : Text) (defaultLineHeight : Float) : Metrics where
  space := table.lookup (d.fontFamily.getD ambient.family ++ [defaultFamily])
  lineHeight := LineHeight.resolve d.lineHeight ambient.lineHeight defaultLineHeight

/-- The margins at both edges as values of CSS; empty where none is needed. -/
structure Offsets where
  /-- At the upper edge. -/
  before : Text
  /-- At the lower edge. -/
  after : Text
  deriving DecidableEq, Repr

namespace Offsets

/-- No margins. -/
def unneeded : Offsets := ⟨[], []⟩

/-- Whether no edge needs a margin. -/
def isEmpty (o : Offsets) : Bool := o.before.isEmpty && o.after.isEmpty

/-- The margin for the space at one edge, when the line height is a factor. -/
def emText (lineHeight space : Float) : Text :=
  Decimal.lengthText (Decimal.roundToCents (-space - (lineHeight - 1.0) / 2.0)) ++ "em".toList

/-- The margin for the space at one edge, when the line height is a length. Its relation to the
font size is unknown, so that the margin is left to be calculated. -/
def calcText (lineHeight : LineHeight) (space : Float) : Text :=
  "calc(".toList ++ Decimal.lengthText (-space) ++ "em - (".toList
    ++ Decimal.lengthText lineHeight.value ++ lineHeight.unit ++ " - 1em) / 2)".toList

/-- The margins for metrics. None are needed for a font without space at a line height of one,
whatever its unit. -/
def ofMetrics (m : Metrics) : Offsets :=
  if m.space.before == 0.0 && m.space.after == 0.0 && m.lineHeight.value == 1.0 then unneeded
  else
    let margin := if m.lineHeight.unit.isEmpty then emText m.lineHeight.value
      else calcText m.lineHeight
    ⟨margin m.space.before, margin m.space.after⟩

/-- The part of a placement at which there are margins. -/
def placement? (o : Offsets) (p : Placement) : Option Placement :=
  Placement.ofEdges? (p.hasBefore && !o.before.isEmpty) (p.hasAfter && !o.after.isEmpty)

end Offsets

end LeadingTrim

/-
# Source maps

A source map is a list of points, ordered by their places in the generated text. A point that is
mapped names the place from which the text there comes. The text behind a point comes from the same
place as the text at the point, unless the point maps a range: then the columns behind it go on as
they do in the source. Lines and columns count from zero, and columns count UTF-16 code units.
-/

import LeadingTrim.StableSort
import LeadingTrim.Text.Basic

namespace LeadingTrim.SourceMap

/-- Where a piece of text comes from. -/
structure Origin where
  /-- The line. -/
  line : Nat
  /-- The column. -/
  column : Nat
  /-- The name of the source. -/
  source : Option Text
  /-- The name that the text had in the source. -/
  name : Option Text
  deriving DecidableEq, Repr

/-- A point of a source map. -/
structure Point where
  /-- The line of the generated text. -/
  line : Nat
  /-- The column of the generated text. -/
  column : Nat
  /-- Where the text there comes from, if it is mapped. -/
  origin : Option Origin
  /-- Whether the point maps a range. -/
  isRange : Bool
  deriving DecidableEq, Repr

/-- Whether two points are at the same place. -/
def Point.samePlace (p q : Point) : Bool := p.line == q.line && p.column == q.column

/-- Whether a point's place is at a given one or in front of it. -/
def Point.upTo (p : Point) (line column : Nat) : Bool :=
  p.line < line || (p.line == line && p.column ≤ column)

/-- The order of points by place. -/
def Point.le (p q : Point) : Bool := p.upTo q.line q.column

/-- The order of points by place, mapped ones first. -/
def Point.leMapped (p q : Point) : Bool :=
  if p.samePlace q then p.origin.isSome || q.origin.isNone else p.le q

/-- The point that applies at a place: the first of those that are exactly there, or else the last
one in front of it, on whatever line. The points are in order. -/
def lookup (points : List Point) (line column : Nat) : Option Point :=
  match points.find? fun p => p.line == line && p.column == column with
  | some p => some p
  | none => (points.takeWhile fun p => p.upTo line column).getLast?

/-- One more than the greatest 32-bit word. -/
def wordBound : Nat := Nat.pow 2 32

/-- A number as a 32-bit word. -/
def wordOf (n : Nat) : Nat := n % wordBound

theorem wordOf_of_lt {n : Nat} (h : n < wordBound) : wordOf n = n := Nat.mod_eq_of_lt h

/-- The point with lines and columns as 32-bit words. -/
def Point.inWords (p : Point) : Point :=
  { p with
    line := wordOf p.line
    column := wordOf p.column
    origin := p.origin.map fun o => { o with line := wordOf o.line, column := wordOf o.column } }

/-- A word moved by a difference. -/
def advance (word : Nat) (difference : Int) : Nat :=
  ((Int.ofNat word + difference) % (wordBound : Int)).toNat

/-- The origin of the text in a column, at the point or behind it. In a range the column in the
source goes on by the distance from the point, a 32-bit word, and stops at the greatest word. -/
def Point.originOf (p : Point) (column : Nat) : Option Origin :=
  p.origin.map fun o =>
    if p.isRange then
      { o with column := min (o.column + advance column (-Int.ofNat p.column)) (wordBound - 1) }
    else o

/-- A point that maps no range has one origin for all columns behind it. -/
theorem Point.originOf_of_isRange_eq_false {p : Point} (h : p.isRange = false) (column : Nat) :
    p.originOf column = p.origin := by
  simp [Point.originOf, h]

/-- The origin of the text at a place. The points are in order. -/
def originAt (points : List Point) (line column : Nat) : Option Origin :=
  (lookup points line column).bind (·.originOf column)

/-- The points without those at the place of the one in front of them. -/
def dropRepeated : List Point → List Point
  | [] => []
  | p :: rest => p :: dropBehind p rest
where
  /-- The points behind one that is kept. -/
  dropBehind (p : Point) : List Point → List Point
    | [] => []
    | q :: rest => if p.samePlace q then dropBehind p rest else q :: dropBehind q rest

/-- The points in order, one for each place, a mapped one if there is any. -/
def normalize (points : List Point) : List Point :=
  dropRepeated (stableSort Point.leMapped points)

end LeadingTrim.SourceMap

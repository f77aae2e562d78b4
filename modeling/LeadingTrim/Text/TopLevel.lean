/-
# Splitting outside quotes and brackets

A separator splits a text where it stands outside quoted strings and brackets and no backslash
precedes it. Each piece comes with the text behind it, so that a reader can go on from there.
-/

import LeadingTrim.Text.Basic

namespace LeadingTrim.Text

/-- What a splitter looks at besides quotes and backslashes. -/
structure Splitter where
  /-- The characters that open a bracket. -/
  opens : Char → Bool
  /-- The characters that close one. -/
  closes : Char → Bool
  /-- The characters that separate pieces. -/
  separates : Char → Bool

/-- Where a splitter stands. -/
structure Depth where
  /-- The number of open brackets. -/
  brackets : Nat
  /-- The quote of the string that is being read. -/
  quote : Option Char
  /-- Whether a backslash precedes. -/
  escaped : Bool
  deriving DecidableEq, Repr

/-- Outside of everything. -/
def Depth.outside : Depth := ⟨0, none, false⟩

/-- A quotation mark. -/
def isQuote (c : Char) : Bool := c == '"' || c == '\''

/-- Where a splitter stands behind a character. A closing bracket that nothing has opened counts
for nothing. -/
def Splitter.next (p : Splitter) (d : Depth) (c : Char) : Depth :=
  if d.escaped then { d with escaped := false }
  else if c == '\\' then { d with escaped := true }
  else match d.quote with
    | some q => if c == q then { d with quote := none } else d
    | none =>
      if isQuote c then { d with quote := some c }
      else if p.opens c then { d with brackets := d.brackets + 1 }
      else if p.closes c then { d with brackets := d.brackets - 1 }
      else d

/-- Whether a character ends a piece. -/
def Splitter.ends (p : Splitter) (d : Depth) (c : Char) : Bool :=
  d = Depth.outside && p.separates c && !(c == '\\' || isQuote c || p.opens c || p.closes c)

/-- The pieces of a text, each with the text behind it; always at least one. -/
def Splitter.pieces (p : Splitter) : Depth → Text → List (Text × Text)
  | _, [] => [([], [])]
  | d, c :: rest =>
    if p.ends d c then ([], c :: rest) :: p.pieces d rest
    else match p.pieces (p.next d c) rest with
      | [] => [([c], [])]
      | (piece, behind) :: more => (c :: piece, behind) :: more

/-- The pieces of a text. -/
def Splitter.split (p : Splitter) (t : Text) : List (Text × Text) := p.pieces Depth.outside t

/-- The first piece and the text behind it make up the text. -/
theorem Splitter.head_pieces (p : Splitter) (d : Depth) (t : Text) :
    ∃ piece behind more, p.pieces d t = (piece, behind) :: more ∧ piece ++ behind = t := by
  induction t generalizing d with
  | nil => exact ⟨[], [], [], rfl, rfl⟩
  | cons c t ih =>
    rw [pieces]
    split
    · exact ⟨[], c :: t, _, rfl, rfl⟩
    · obtain ⟨piece, behind, more, h, hcat⟩ := ih (p.next d c)
      rw [h]
      exact ⟨c :: piece, behind, more, rfl, by simp [hcat]⟩

end LeadingTrim.Text

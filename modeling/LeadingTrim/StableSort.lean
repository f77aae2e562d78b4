/-
# A stable sort

Sorting by insertion: elements that compare equal keep their order. The result holds the same
elements (`stableSort_perm`) in order (`stableSort_pairwise`), and elements that are in order stay
as they are (`stableSort_of_pairwise`).
-/

namespace LeadingTrim

variable {α : Type}

/-- An element put in front of the first one that it does not exceed. -/
def insertSorted (le : α → α → Bool) (a : α) : List α → List α
  | [] => [a]
  | b :: rest => if le a b then a :: b :: rest else b :: insertSorted le a rest

/-- The elements in order. -/
def stableSort (le : α → α → Bool) : List α → List α
  | [] => []
  | a :: rest => insertSorted le a (stableSort le rest)

variable {le : α → α → Bool}

theorem insertSorted_perm (a : α) (l : List α) : (insertSorted le a l).Perm (a :: l) := by
  induction l with
  | nil => exact .refl _
  | cons b l ih =>
    rw [insertSorted]
    split
    · exact .refl _
    · exact (ih.cons b).trans (.swap a b l)

theorem stableSort_perm (l : List α) : (stableSort le l).Perm l := by
  induction l with
  | nil => exact .refl _
  | cons a l ih => exact (insertSorted_perm a _).trans (ih.cons a)

theorem insertSorted_pairwise (trans : ∀ a b c, le a b → le b c → le a c)
    (total : ∀ a b, le a b || le b a) (a : α) {l : List α} (h : l.Pairwise (le · ·)) :
    (insertSorted le a l).Pairwise (le · ·) := by
  induction l with
  | nil => simp [insertSorted]
  | cons b l ih =>
    obtain ⟨hb, hl⟩ := List.pairwise_cons.mp h
    rw [insertSorted]
    split
    · next hab =>
      refine List.pairwise_cons.mpr ⟨fun c hc => ?_, h⟩
      rcases List.mem_cons.mp hc with rfl | hc
      · exact hab
      · exact trans a b c hab (hb c hc)
    · next hab =>
      refine List.pairwise_cons.mpr ⟨fun c hc => ?_, ih hl⟩
      rcases List.mem_cons.mp ((insertSorted_perm a l).mem_iff.mp hc) with rfl | hc
      · simpa [hab] using total c b
      · exact hb c hc

/-- The sorted elements are in order. -/
theorem stableSort_pairwise (trans : ∀ a b c, le a b → le b c → le a c)
    (total : ∀ a b, le a b || le b a) (l : List α) : (stableSort le l).Pairwise (le · ·) := by
  induction l with
  | nil => exact .nil
  | cons a l ih => exact insertSorted_pairwise trans total a ih

/-- Elements in order stay as they are. -/
theorem stableSort_of_pairwise {l : List α} (h : l.Pairwise (le · ·)) : stableSort le l = l := by
  induction l with
  | nil => rfl
  | cons a l ih =>
    obtain ⟨ha, hl⟩ := List.pairwise_cons.mp h
    rw [stableSort, ih hl]
    cases l with
    | nil => rfl
    | cons b l => rw [insertSorted, if_pos (ha b List.mem_cons_self)]

end LeadingTrim

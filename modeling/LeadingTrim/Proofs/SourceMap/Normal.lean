/-
# Points in order

The points of a map are put in order, one for each place. What is left of them is strictly ordered
(`pairwise_before_normalize`) and has a point at every place that had one
(`exists_mem_normalize`). So the last point at or before a place is the greatest one there
(`lastUpTo_normalize`), and it is the one that applies there (`lookup_eq_lastUpTo`).
-/

import LeadingTrim.SourceMap.Basic

namespace LeadingTrim.SourceMap

/-- The last point at a place or in front of it. -/
def lastUpTo (points : List Point) (line column : Nat) : Option Point :=
  (points.filter (·.upTo line column)).getLast?

/-- The place of a point is in front of that of another. -/
def Point.Before (p q : Point) : Prop := p.line < q.line ∨ p.line = q.line ∧ p.column < q.column

theorem Point.samePlace_iff {p q : Point} :
    p.samePlace q = true ↔ p.line = q.line ∧ p.column = q.column := by
  simp [Point.samePlace]

theorem Point.upTo_iff {p : Point} {line column : Nat} :
    p.upTo line column = true ↔ p.line < line ∨ p.line = line ∧ p.column ≤ column := by
  simp [Point.upTo]

theorem Point.Before.line_le {p q : Point} (h : p.Before q) : p.line ≤ q.line := by
  unfold Point.Before at h
  omega

theorem Point.Before.le {p q : Point} (h : p.Before q) : p.le q = true := by
  unfold Point.Before at h
  rw [Point.le, Point.upTo_iff]
  omega

theorem Point.leMapped_iff {p q : Point} :
    p.leMapped q = true ↔ p.Before q ∨
      p.samePlace q = true ∧ (p.origin.isSome = true ∨ q.origin.isNone = true) := by
  unfold Point.leMapped Point.Before
  split
  next h =>
    have hplace := Point.samePlace_iff.mp h
    rw [Bool.or_eq_true]
    constructor
    · exact fun hmapped => Or.inr ⟨h, hmapped⟩
    · rintro (hbefore | ⟨-, hmapped⟩)
      · omega
      · exact hmapped
  next h =>
    rw [Point.samePlace_iff] at h
    rw [Point.le, Point.upTo_iff]
    constructor
    · exact fun hle => Or.inl (by omega)
    · rintro (hbefore | ⟨hplace, -⟩)
      · omega
      · exact absurd (Point.samePlace_iff.mp hplace) h

theorem Point.leMapped_trans (p q r : Point) (hpq : p.leMapped q = true)
    (hqr : q.leMapped r = true) : p.leMapped r = true := by
  simp only [Point.leMapped_iff, Point.Before, Point.samePlace_iff] at *
  rcases hpq with hpq | ⟨hpq, hp⟩
  · rcases hqr with hqr | ⟨hqr, -⟩
    · exact Or.inl (by omega)
    · exact Or.inl (by omega)
  · rcases hqr with hqr | ⟨hqr, hr⟩
    · exact Or.inl (by omega)
    · refine Or.inr ⟨by omega, ?_⟩
      cases hmapped : q.origin with
      | none => exact Or.inr (by simpa [hmapped] using hr)
      | some o => exact Or.inl (by simpa [hmapped] using hp)

theorem Point.leMapped_total (p q : Point) : (p.leMapped q || q.leMapped p) = true := by
  rw [Bool.or_eq_true]
  simp only [Point.leMapped_iff, Point.Before, Point.samePlace_iff]
  rcases Nat.lt_trichotomy p.line q.line with h | h | h
  · exact Or.inl (by omega)
  · rcases Nat.lt_trichotomy p.column q.column with h' | h' | h'
    · exact Or.inl (by omega)
    · cases hmapped : p.origin with
      | none => exact Or.inr (Or.inr ⟨⟨h.symm, h'.symm⟩, Or.inr rfl⟩)
      | some o => exact Or.inl (Or.inr ⟨⟨h, h'⟩, Or.inl rfl⟩)
    · exact Or.inr (by omega)
  · exact Or.inr (by omega)

/-! ## Without repetitions -/

theorem mem_of_mem_dropBehind {p q : Point} {points : List Point}
    (h : q ∈ dropRepeated.dropBehind p points) : q ∈ points := by
  induction points generalizing p with
  | nil => simp [dropRepeated.dropBehind] at h
  | cons r points ih =>
    rw [dropRepeated.dropBehind] at h
    split at h
    · exact List.mem_cons_of_mem _ (ih h)
    · rcases List.mem_cons.mp h with rfl | h
      · exact List.mem_cons_self
      · exact List.mem_cons_of_mem _ (ih h)

theorem pairwise_before_dropBehind {p : Point} {points : List Point}
    (h : (p :: points).Pairwise (·.leMapped ·)) :
    (p :: dropRepeated.dropBehind p points).Pairwise Point.Before := by
  induction points generalizing p with
  | nil => exact List.pairwise_singleton _ _
  | cons q points ih =>
    obtain ⟨hp, hrest⟩ := List.pairwise_cons.mp h
    rw [dropRepeated.dropBehind]
    split
    · refine ih (List.pairwise_cons.mpr ⟨fun r hr => hp r (List.mem_cons_of_mem _ hr), ?_⟩)
      exact (List.pairwise_cons.mp hrest).2
    next hplace =>
      have hq := ih hrest
      have hpq : p.Before q := by
        rcases Point.leMapped_iff.mp (hp q List.mem_cons_self) with hpq | ⟨hsame, -⟩
        · exact hpq
        · exact absurd hsame hplace
      refine List.pairwise_cons.mpr ⟨fun r hr => ?_, hq⟩
      rcases List.mem_cons.mp hr with rfl | hr
      · exact hpq
      · have hqr := (List.pairwise_cons.mp hq).1 r hr
        unfold Point.Before at *
        omega

theorem exists_mem_dropBehind {p q : Point} {points : List Point} (h : q ∈ p :: points) :
    ∃ r ∈ p :: dropRepeated.dropBehind p points, r.samePlace q = true := by
  induction points generalizing p with
  | nil => exact ⟨q, h, Point.samePlace_iff.mpr ⟨rfl, rfl⟩⟩
  | cons s points ih =>
    rw [dropRepeated.dropBehind]
    rcases List.mem_cons.mp h with rfl | h
    · exact ⟨q, List.mem_cons_self, Point.samePlace_iff.mpr ⟨rfl, rfl⟩⟩
    · split
      next hps =>
        -- a point that is left out has the place of the one in front of it
        rcases List.mem_cons.mp h with rfl | h
        · exact ⟨p, List.mem_cons_self, hps⟩
        · exact ih (List.mem_cons_of_mem _ h)
      · obtain ⟨r, hr, hrq⟩ := ih h
        exact ⟨r, List.mem_cons_of_mem _ hr, hrq⟩

/-! ## In order and without repetitions -/

theorem mem_of_mem_normalize {p : Point} {points : List Point} (h : p ∈ normalize points) :
    p ∈ points := by
  have hperm : (stableSort Point.leMapped points).Perm points := stableSort_perm points
  refine hperm.mem_iff.mp ?_
  unfold normalize at h
  cases hsort : stableSort Point.leMapped points with
  | nil => simp [hsort, dropRepeated] at h
  | cons q rest =>
    rw [hsort, dropRepeated] at h
    rcases List.mem_cons.mp h with rfl | h
    · exact List.mem_cons_self
    · exact List.mem_cons_of_mem _ (mem_of_mem_dropBehind h)

/-- Each point is in front of those behind it. -/
theorem pairwise_before_normalize (points : List Point) :
    (normalize points).Pairwise Point.Before := by
  have hsorted := stableSort_pairwise Point.leMapped_trans Point.leMapped_total points
  unfold normalize
  cases hsort : stableSort Point.leMapped points with
  | nil => exact .nil
  | cons q rest =>
    rw [hsort] at hsorted
    exact pairwise_before_dropBehind hsorted

/-- No place is left out. -/
theorem exists_mem_normalize {p : Point} {points : List Point} (h : p ∈ points) :
    ∃ q ∈ normalize points, q.samePlace p = true := by
  have hperm : (stableSort Point.leMapped points).Perm points := stableSort_perm points
  have hmem := hperm.mem_iff.mpr h
  unfold normalize
  cases hsort : stableSort Point.leMapped points with
  | nil => simp [hsort] at hmem
  | cons q rest =>
    rw [hsort] at hmem
    exact exists_mem_dropBehind hmem

/-! ## The last point -/

/-- Two points in order are the same, or one is in front of the other. -/
theorem before_or_before {points : List Point} (h : points.Pairwise Point.Before) {p q : Point}
    (hp : p ∈ points) (hq : q ∈ points) : q = p ∨ q.Before p ∨ p.Before q := by
  obtain ⟨before, after, rfl⟩ := List.append_of_mem hp
  rcases List.mem_append.mp hq with hq | hq
  · exact Or.inr (Or.inl (h.rel_of_mem_append hq List.mem_cons_self))
  · rcases List.mem_cons.mp hq with rfl | hq
    · exact Or.inl rfl
    · exact Or.inr (Or.inr ((List.pairwise_cons.mp (List.pairwise_append.mp h).2.1).1 q hq))

/-- In points in order, the last one at a place or in front of it is that behind all others there.
-/
theorem lastUpTo_eq_some {p : Point} {points : List Point} {line column : Nat}
    (h : points.Pairwise Point.Before) (hp : p ∈ points) (hupTo : p.upTo line column = true)
    (hlast : ∀ q ∈ points, q.upTo line column = true → q = p ∨ q.Before p) :
    lastUpTo points line column = some p := by
  obtain ⟨before, after, rfl⟩ := List.append_of_mem hp
  have hafter : after.filter (·.upTo line column) = [] := by
    refine List.filter_eq_nil_iff.mpr fun q hq hqupTo => ?_
    have hpq := (List.pairwise_cons.mp (List.pairwise_append.mp h).2.1).1 q hq
    unfold Point.Before at hpq
    rcases hlast q (by simp [hq]) hqupTo with rfl | hbefore
    · omega
    · unfold Point.Before at hbefore
      omega
  have hcons : (p :: after).filter (·.upTo line column) = [p] := by
    rw [List.filter_cons, if_pos hupTo, hafter]
  rw [lastUpTo, List.filter_append, hcons, List.getLast?_concat]

/-- The last point at a place or in front of it is that behind all others there. -/
theorem lastUpTo_normalize {p : Point} {points : List Point} {line column : Nat} (hp : p ∈ points)
    (hupTo : p.upTo line column = true)
    (hlast : ∀ q ∈ points, q.upTo line column = true → q = p ∨ q.Before p) :
    lastUpTo (normalize points) line column = some p := by
  refine lastUpTo_eq_some (pairwise_before_normalize points) ?_ hupTo fun q hq =>
    hlast q (mem_of_mem_normalize hq)
  -- the point that is left at the place is the point itself
  obtain ⟨q, hq, hplace⟩ := exists_mem_normalize hp
  have hsame := Point.samePlace_iff.mp hplace
  have hqupTo : q.upTo line column = true := by
    rw [Point.upTo_iff] at hupTo ⊢
    omega
  rcases hlast q (mem_of_mem_normalize hq) hqupTo with rfl | hbefore
  · exact hq
  · unfold Point.Before at hbefore
    omega

/-- In points in order, the last one at or in front of the place of a point is the point. -/
theorem lastUpTo_of_mem {points : List Point} (h : points.Pairwise Point.Before) {p : Point}
    (hp : p ∈ points) : lastUpTo points p.line p.column = some p := by
  refine lastUpTo_eq_some h hp (Point.upTo_iff.mpr (by omega)) fun q hq hupTo => ?_
  rw [Point.upTo_iff] at hupTo
  rcases before_or_before h hp hq with hqp | hqp | hpq
  · exact Or.inl hqp
  · exact Or.inr hqp
  · unfold Point.Before at hpq
    omega

/-- Behind a point that is behind a place, so are all. -/
theorem takeWhile_upTo {points : List Point} (h : points.Pairwise Point.Before)
    (line column : Nat) :
    points.takeWhile (·.upTo line column) = points.filter (·.upTo line column) := by
  induction points with
  | nil => rfl
  | cons p points ih =>
    obtain ⟨hp, hpoints⟩ := List.pairwise_cons.mp h
    by_cases hupTo : p.upTo line column = true
    · rw [List.takeWhile_cons, List.filter_cons, if_pos hupTo, if_pos hupTo, ih hpoints]
    · rw [List.takeWhile_cons, List.filter_cons, if_neg hupTo, if_neg hupTo]
      refine (List.filter_eq_nil_iff.mpr fun q hq hqupTo => hupTo ?_).symm
      have hpq := hp q hq
      rw [Point.upTo_iff] at hqupTo ⊢
      unfold Point.Before at hpq
      omega

/-- In points in order, the one that applies at a place is the last at or in front of it. -/
theorem lookup_eq_lastUpTo {points : List Point} (h : points.Pairwise Point.Before)
    (line column : Nat) : lookup points line column = lastUpTo points line column := by
  rw [lookup]
  cases hfind : points.find? fun p => p.line == line && p.column == column with
  | none => rw [takeWhile_upTo h, lastUpTo]
  | some p =>
    have hplace := List.find?_some hfind
    simp only [Bool.and_eq_true, beq_iff_eq] at hplace
    rw [← hplace.1, ← hplace.2]
    exact (lastUpTo_of_mem h (List.mem_of_find?_eq_some hfind)).symm

/-- Points that map no range tell the origin of a place by the last at or in front of it. -/
theorem originAt_eq {points : List Point} (h : points.Pairwise Point.Before)
    (hrange : ∀ p ∈ points, p.isRange = false) (line column : Nat) :
    originAt points line column = (lastUpTo points line column).bind Point.origin := by
  rw [originAt, lookup_eq_lastUpTo h]
  cases hlast : lastUpTo points line column with
  | none => rfl
  | some p =>
    have hp : p ∈ points := (List.mem_filter.mp (List.mem_of_getLast? hlast)).1
    exact p.originOf_of_isRange_eq_false (hrange p hp) column

/-- The origin of the place of a point is that of the point. -/
theorem originAt_of_mem {points : List Point} (h : points.Pairwise Point.Before)
    (hrange : ∀ p ∈ points, p.isRange = false) {p : Point} (hp : p ∈ points) :
    originAt points p.line p.column = p.origin := by
  rw [originAt_eq h hrange, lastUpTo_of_mem h hp, Option.bind_some]

end LeadingTrim.SourceMap

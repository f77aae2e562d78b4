/-
# Maps that are read

Whatever text is read as a map, its points are in order (`pairwise_le_of_read`), and the origins
that they tell can be written again (`isWritable_of_read`): lines and columns are words, and there
is a source. Each segment sees to it (`isWritable_of_pointOf`).
-/

import LeadingTrim.Proofs.Except
import LeadingTrim.Proofs.SourceMap.Normal
import LeadingTrim.SourceMap.Reader

namespace LeadingTrim.SourceMap

/-- The members of a map make the points of its segments, if they make points. -/
theorem exists_points_of_contents {m : Members} {sections : Option (List (Except Fault Contents))}
    {found : List Point} (h : m.contents sections = .ok (.points found)) :
    ∃ sources names mappings ranges, points sources names mappings ranges = .ok found := by
  cases sections with
  | some sections =>
    obtain ⟨-, -, hother⟩ := exists_of_bind_eq_ok h
    cases hother
  | none =>
    obtain ⟨read, hread, hfound⟩ := exists_of_bind_eq_ok h
    split at hfound
    · cases hfound
    · cases hfound
      exact ⟨_, _, _, _, hread⟩

/-- What a value makes as a map is what the members of a map make. -/
theorem exists_contents {maps : Nat} {v : Json} {made : Except Fault Contents}
    (h : contents? maps v = some made) : ∃ m sections, made = Members.contents m sections := by
  rw [contents?.eq_def] at h
  obtain ⟨m, -, hm⟩ := Option.bind_eq_some_iff.mp h
  split at hm
  · exact ⟨m, none, (Option.some.inj hm).symm⟩
  · split at hm
    · cases hm
    · obtain ⟨sections, -, hmade⟩ := Option.map_eq_some_iff.mp hm
      exact ⟨m, some sections, hmade.symm⟩

/-- The points of a map that is read are those of its segments. -/
theorem exists_points_of_read {map : Text} {found : List Point} (h : read map = .ok found) :
    ∃ sources names mappings ranges, points sources names mappings ranges = .ok found := by
  obtain ⟨text, -, htext⟩ := exists_of_bind_eq_ok h
  split at htext
  · cases htext
  next made hmade =>
    obtain ⟨contents, hcontents, hfound⟩ := exists_of_bind_eq_ok htext
    obtain ⟨v, -, hv⟩ := Option.bind_eq_some_iff.mp hmade
    obtain ⟨m, sections, rfl⟩ := exists_contents hv
    cases contents with
    | points points =>
      cases hfound
      exact exists_points_of_contents hcontents
    | other => cases hfound

/-! ## Order -/

theorem Point.le_trans (p q r : Point) (hpq : p.le q = true) (hqr : q.le r = true) :
    p.le r = true := by
  simp only [Point.le, Point.upTo_iff] at *
  omega

theorem Point.le_total (p q : Point) : (p.le q || q.le p) = true := by
  simp only [Bool.or_eq_true, Point.le, Point.upTo_iff]
  omega

/-- An origin can be written: it has a source, and line and column are words. The greatest word
stands for no line. -/
structure Origin.IsWritable (o : Origin) : Prop where
  line : o.line + 1 < wordBound
  column : o.column < wordBound
  source : o.source.isSome = true

theorem advance_lt (word : Nat) (difference : Int) : advance word difference < wordBound := by
  have hpos : (0 : Int) < (wordBound : Int) := Int.natCast_pos.mpr (Nat.two_pow_pos 32)
  have hlt := Int.emod_lt_of_pos (Int.ofNat word + difference) hpos
  have hnonneg := Int.emod_nonneg (Int.ofNat word + difference) (Int.ne_of_gt hpos)
  unfold advance
  omega

theorem isWritable_of_mem_originOn {line column : Nat} {source name : Option Text} {o : Origin}
    (hline : line < wordBound) (hcolumn : column < wordBound) (hsource : source.isSome = true)
    (ho : o ∈ originOn line column source name) : o.IsWritable := by
  unfold originOn at ho
  split at ho
  · cases ho
  next hgreatest =>
    obtain rfl := Option.some.inj ho
    refine ⟨?_, hcolumn, hsource⟩
    dsimp only
    omega

section Segments

variable {sources names : List Text}

/-- The origin that a segment tells can be written. -/
theorem isWritable_of_pointOf {line : Nat} {c c' : Cursor} {segment : Text} {isRange : Bool}
    {p : Point} (h : pointOf sources names line c segment isRange = .ok (p, c')) :
    ∀ o ∈ p.origin, o.IsWritable := by
  obtain ⟨numbers, -, hpoint⟩ := exists_of_bind_eq_ok h
  split at hpoint
  · obtain ⟨rfl, -⟩ := Prod.mk.inj (Except.ok.inj hpoint)
    intro o ho
    cases ho
  · dsimp only at hpoint
    split at hpoint
    · cases hpoint
    · split at hpoint
      · cases hpoint
      · split at hpoint
        · obtain ⟨rfl, -⟩ := Prod.mk.inj (Except.ok.inj hpoint)
          exact fun o ho => isWritable_of_mem_originOn (advance_lt _ _) (advance_lt _ _) rfl ho
        · split at hpoint
          · cases hpoint
          · obtain ⟨rfl, -⟩ := Prod.mk.inj (Except.ok.inj hpoint)
            exact fun o ho => isWritable_of_mem_originOn (advance_lt _ _) (advance_lt _ _) rfl ho
  · cases hpoint

/-- The origins that are told so far can be written. -/
def AreWritable (state : List Point × Cursor) : Prop :=
  ∀ p ∈ state.1, ∀ o ∈ p.origin, o.IsWritable

theorem areWritable_of_lineStep {line : Nat} {state state' : List Point × Cursor}
    {segment : Text × Bool} (hstate : AreWritable state)
    (h : lineStep sources names line state segment = .ok state') : AreWritable state' := by
  unfold lineStep at h
  split at h
  · obtain rfl := Except.ok.inj h
    exact hstate
  · obtain ⟨⟨p, c⟩, hpoint, rfl⟩ := exists_of_map_eq_ok h
    exact List.forall_mem_cons.mpr ⟨isWritable_of_pointOf hpoint, hstate⟩

theorem areWritable_of_linesStep {state state' : List Point × Cursor} {line : (Text × Text) × Nat}
    (hstate : AreWritable state) (h : linesStep sources names state line = .ok state') :
    AreWritable state' := by
  obtain ⟨⟨segments, ranges⟩, number⟩ := line
  unfold linesStep at h
  dsimp only at h
  split at h
  · obtain rfl := Except.ok.inj h
    exact hstate
  · obtain ⟨isRange, -, hfold⟩ := exists_of_bind_eq_ok h
    refine of_foldlM_eq_ok (P := AreWritable) ?_ ?_ hfold
    · exact fun _ _ _ hstate hstep => areWritable_of_lineStep hstate hstep
    · exact hstate

end Segments

/-- The origins that a map tells that is read can be written. -/
theorem isWritable_of_read {map : Text} {found : List Point} (h : read map = .ok found) :
    ∀ p ∈ found, ∀ o ∈ p.origin, o.IsWritable := by
  obtain ⟨sources, names, mappings, ranges, hpoints⟩ := exists_points_of_read h
  obtain ⟨state, hstate, rfl⟩ := exists_of_map_eq_ok hpoints
  have hall : AreWritable state := by
    refine of_foldlM_eq_ok (P := AreWritable) ?_ ?_ hstate
    · exact fun _ _ _ hstate hstep => areWritable_of_linesStep hstate hstep
    · exact fun p hp => absurd hp List.not_mem_nil
  have hperm : (stableSort Point.le state.1.reverse).Perm state.1.reverse := stableSort_perm _
  intro p hp
  exact hall p (List.mem_reverse.mp (hperm.mem_iff.mp hp))

end LeadingTrim.SourceMap

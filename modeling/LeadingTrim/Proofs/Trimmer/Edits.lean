/-
# The edits of a sheet

An edit of a directive replaces or removes its declaration, or inserts behind its rule
(`mem_edits`). As declarations share no byte and no rule ends inside one, the edits of all
directives are apart, and sorted they come one behind the other (`inOrder_sortEdits`), whatever
rules are nested and however many directives one rule has.
-/

import LeadingTrim.Proofs.Directive.Parse
import LeadingTrim.Proofs.Edit.Apart
import LeadingTrim.Proofs.Sheet.Extent
import LeadingTrim.Trimmer

namespace LeadingTrim

open Sheet (Declaration Rule)

namespace Correction

/-- What an edit of a directive does: it removes the declaration, replaces it, or inserts behind the
rule. -/
theorem mem_edits {source : Text} {r : Rule} {d : Declaration} {scope : Scope} {p : Placement}
    {o : Offsets} {e : Edit} (he : e ∈ edits source r d scope p o) :
    e = remove d ∨ (∃ text, e = .synthesize d.start d.stop text d.start) ∨
      ∃ text, e = .synthesize r.stop r.stop text d.start := by
  unfold edits at he
  split at he
  · exact Or.inl (by simpa using he)
  next q _ =>
  cases scope with
  | outside => exact Or.inr (Or.inl ⟨marginText source d q o, by simpa using he⟩)
  | inside =>
    rcases List.mem_cons.mp he with rfl | he
    · exact Or.inl rfl
    · exact Or.inr (Or.inr ⟨pseudoRules source r q o, by simpa using he⟩)

/-- An edit of a directive covers nothing but the declaration and the white space before it, or
stands where the rule ends. -/
theorem range_of_mem_edits {source : Text} {r : Rule} {d : Declaration} {scope : Scope}
    {p : Placement} {o : Offsets} {e : Edit} (hd : d.Fits source)
    (he : e ∈ edits source r d scope p o) :
    d.leadingStart ≤ e.start ∧ e.stop ≤ d.stop ∨ e.start = r.stop ∧ e.stop = r.stop := by
  rcases mem_edits he with rfl | ⟨text, rfl⟩ | ⟨text, rfl⟩
  · exact Or.inl ⟨Nat.le_refl _, Nat.le_refl _⟩
  · exact Or.inl ⟨hd.leadingStart_le_start, Nat.le_refl _⟩
  · exact Or.inr ⟨rfl, rfl⟩

theorem isSound_of_mem_edits {source : Text} {r : Rule} {d : Declaration} {scope : Scope}
    {p : Placement} {o : Offsets} {e : Edit} (hd : d.Fits source)
    (hr : source.IsBoundary r.stop) (he : e ∈ edits source r d scope p o) :
    e.IsSound source.byteSize ∧ source.IsBoundary e.start ∧ source.IsBoundary e.stop := by
  have hleading := hd.leadingStart_le_start
  have hstart := hd.start_lt_stop
  have hstop := hd.isBoundary_stop.le
  rcases mem_edits he with rfl | ⟨text, rfl⟩ | ⟨text, rfl⟩
  · exact ⟨Edit.isSound_delete (by omega) hstop, hd.isBoundary_leadingStart, hd.isBoundary_stop⟩
  · exact ⟨Edit.isSound_synthesize text (by omega) hstop (by omega), hd.isBoundary_start,
      hd.isBoundary_stop⟩
  · exact ⟨Edit.isSound_synthesize text (Nat.le_refl _) hr.le (by omega), hr, hr⟩

/-- The edits of one directive are apart. -/
theorem pairwise_apart_edits {source : Text} {r : Rule} {d : Declaration} (scope : Scope)
    (p : Placement) (o : Offsets) (hspares : d.Spares r.stop) :
    (edits source r d scope p o).Pairwise Edit.Apart := by
  unfold edits
  split
  · exact List.pairwise_singleton _ _
  · cases scope with
    | outside => exact List.pairwise_singleton _ _
    | inside => exact List.pairwise_pair.mpr (Or.symm hspares)

/-- The edits of directives in different declarations are apart. Two insertions are, even where they
stand at one place. -/
theorem apart_of_mem_edits {source : Text} {r r' : Rule} {d d' : Declaration} {scope scope' : Scope}
    {p p' : Placement} {o o' : Offsets} {e e' : Edit} (hd : d.Fits source) (hd' : d'.Fits source)
    (hapart : d.Apart d') (hspares : d.Spares r'.stop) (hspares' : d'.Spares r.stop)
    (he : e ∈ edits source r d scope p o) (he' : e' ∈ edits source r' d' scope' p' o') :
    Edit.Apart e e' := by
  have h := range_of_mem_edits hd he
  have h' := range_of_mem_edits hd' he'
  unfold Edit.Apart
  unfold Declaration.Apart at hapart
  unfold Declaration.Spares at hspares hspares'
  omega

end Correction

namespace Trimmer

/-! ## Directives -/

/-- The declarations that are directives, in whatever rule. -/
theorem map_snd_directives (t : Trimmer) (rules : List Rule) :
    (t.directives rules).map Prod.snd =
      (rules.flatMap Rule.declarations).filter fun d => d.property = t.property := by
  simp [directives, List.map_flatMap, List.filter_flatMap, Function.comp_def]

theorem mem_directives {t : Trimmer} {rules : List Rule} {r : Rule} {d : Declaration} :
    (r, d) ∈ t.directives rules ↔ r ∈ rules ∧ d ∈ r.declarations ∧ d.property = t.property := by
  simp only [directives, List.mem_flatMap, List.mem_map, List.mem_filter, decide_eq_true_eq,
    Prod.mk.injEq]
  constructor
  · rintro ⟨r', hr, d', ⟨hd, hproperty⟩, rfl, rfl⟩
    exact ⟨hr, hd, hproperty⟩
  · rintro ⟨hr, hd, hproperty⟩
    exact ⟨r, hr, d, ⟨hd, hproperty⟩, rfl, rfl⟩

/-- The edits of a directive; none if it cannot be read. -/
def editsOf (t : Trimmer) (source : Text) (x : Rule × Declaration) : List Edit :=
  match Directive.read? x.2.value with
  | none => []
  | some directive =>
    Correction.edits source x.1 x.2 directive.scope directive.placement
      (Offsets.ofMetrics (t.metrics x.1 directive))

/-- An edit of a directive comes from its correction. -/
theorem exists_of_mem_editsOf {t : Trimmer} {source : Text} {x : Rule × Declaration} {e : Edit}
    (he : e ∈ t.editsOf source x) :
    ∃ scope p o, e ∈ Correction.edits source x.1 x.2 scope p o := by
  unfold editsOf at he
  split at he
  · simp at he
  · exact ⟨_, _, _, he⟩

/-- All directives are read, or the first that cannot be read is reported. -/
theorem outcomes_snd (t : Trimmer) (source : Text) (ds : List (Rule × Declaration)) :
    (t.outcomes source ds).2 =
      match ds.find? fun x => (Directive.read? x.2.value).isNone with
      | some (_, d) => .error (.malformedDirective d.property d.value d.position)
      | none => .ok (ds.map (t.editsOf source)) := by
  induction ds with
  | nil => rfl
  | cons x ds ih =>
    obtain ⟨r, d⟩ := x
    rw [outcomes, outcome]
    cases hread : Directive.read? d.value with
    | none => simp [hread, Directive.parse_eq_error_of_read? hread]
    | some directive =>
      simp only [ih, List.find?_cons, hread, Option.isNone_some,
        Directive.parse_eq_ok_of_read? hread]
      cases ds.find? fun x => (Directive.read? x.2.value).isNone with
      | none => simp [Except.map, editsOf, hread]
      | some x => simp [Except.map]

/-! ## Sorting -/

theorem leEdits_iff {a b : Numbered} :
    leEdits a b = true ↔ a.1.start < b.1.start ∨ a.1.start = b.1.start ∧
      (a.1.stop < b.1.stop ∨ a.1.stop = b.1.stop ∧ b.2 ≤ a.2) := by
  unfold leEdits
  split
  · simp only [decide_eq_true_eq]
    omega
  · split
    · simp only [decide_eq_true_eq]
      omega
    · simp only [decide_eq_true_eq]
      omega

theorem leEdits_trans (a b c : Numbered) (hab : leEdits a b = true) (hbc : leEdits b c = true) :
    leEdits a c = true := by
  rw [leEdits_iff] at *
  omega

theorem leEdits_total (a b : Numbered) : (leEdits a b || leEdits b a) = true := by
  rw [Bool.or_eq_true, leEdits_iff, leEdits_iff]
  omega

/-- The edits of the groups, each with the number of its group. -/
def numbered (groups : List (List Edit)) : List Numbered :=
  groups.zipIdx.flatMap fun group => group.1.map fun e => (e, group.2)

theorem map_fst_numbered (groups : List (List Edit)) :
    (numbered groups).map Prod.fst = groups.flatten := by
  simp [numbered, Function.comp_def, List.flatMap_def]

theorem sortEdits_perm (groups : List (List Edit)) : (sortEdits groups).Perm groups.flatten := by
  rw [← map_fst_numbered]
  exact (stableSort_perm _).map _

theorem pairwise_sortEdits (groups : List (List Edit)) :
    (sortEdits groups).Pairwise fun a b =>
      a.start < b.start ∨ a.start = b.start ∧ a.stop ≤ b.stop := by
  have hsorted := stableSort_pairwise leEdits_trans leEdits_total (numbered groups)
  refine List.pairwise_map.mpr (hsorted.imp fun {a b} h => ?_)
  rw [leEdits_iff] at h
  omega

/-! ## The edits of rules that fit together -/

variable {source : Text} {rules : List Rule}

/-- No two directives share a byte. -/
theorem pairwise_apart_directives (t : Trimmer) (hfits : Sheet.Fits source rules) :
    (t.directives rules).Pairwise fun x y => x.2.Apart y.2 := by
  rw [← List.pairwise_map (f := Prod.snd) (R := Declaration.Apart), map_snd_directives]
  exact hfits.apart.filter _

theorem pairwise_apart_flatMap_editsOf (t : Trimmer) (hfits : Sheet.Fits source rules) :
    ((t.directives rules).flatMap (t.editsOf source)).Pairwise Edit.Apart := by
  have hapart := pairwise_apart_directives t hfits
  have hmem : ∀ x ∈ t.directives rules, x.1 ∈ rules ∧ x.2 ∈ x.1.declarations := fun x hx =>
    ⟨(mem_directives.mp hx).1, (mem_directives.mp hx).2.1⟩
  have hspares : ∀ x ∈ t.directives rules, ∀ y ∈ t.directives rules, x.2.Spares y.1.stop :=
    fun x hx y hy => hfits.spares _ (hmem y hy).1 _
      (List.mem_flatMap_of_mem (hmem x hx).1 (hmem x hx).2)
  rw [List.pairwise_flatMap]
  refine ⟨fun x hx => ?_, hapart.imp_of_mem fun {x y} hx hy hxy e he e' he' => ?_⟩
  · unfold editsOf
    split
    · exact .nil
    · exact Correction.pairwise_apart_edits _ _ _ (hspares x hx x hx)
  · obtain ⟨_, _, _, he⟩ := exists_of_mem_editsOf he
    obtain ⟨_, _, _, he'⟩ := exists_of_mem_editsOf he'
    exact Correction.apart_of_mem_edits (hfits.declaration _ (hmem x hx).1 _ (hmem x hx).2)
      (hfits.declaration _ (hmem y hy).1 _ (hmem y hy).2) hxy (hspares x hx y hy)
      (hspares y hy x hx) he he'

/-- The sorted edits of rules that fit together are in order. -/
theorem inOrder_sortEdits (t : Trimmer) (hfits : Sheet.Fits source rules) :
    Edit.InOrder source (sortEdits ((t.directives rules).map (t.editsOf source))) := by
  have hperm := sortEdits_perm ((t.directives rules).map (t.editsOf source))
  rw [← List.flatMap_def] at hperm
  have hedit : ∀ e ∈ sortEdits ((t.directives rules).map (t.editsOf source)),
      e.IsSound source.byteSize ∧ source.IsBoundary e.start ∧ source.IsBoundary e.stop := by
    intro e he
    obtain ⟨x, hx, he⟩ := List.mem_flatMap.mp (hperm.mem_iff.mp he)
    obtain ⟨_, _, _, he⟩ := exists_of_mem_editsOf he
    obtain ⟨hr, hd, -⟩ := mem_directives.mp hx
    exact Correction.isSound_of_mem_edits (hfits.declaration _ hr _ hd)
      (hfits.isBoundary_stop _ hr) he
  refine ⟨fun e he => (hedit e he).1, fun e he => (hedit e he).2, ?_⟩
  refine Edit.pairwise_stop_le_start (fun e he => (hedit e he).1.start_le_stop) ?_
    (pairwise_sortEdits _)
  exact (hperm.pairwise_iff Edit.Apart.symm).mpr (pairwise_apart_flatMap_editsOf t hfits)

/-- The edits of rules that fit together, unless a directive cannot be read. -/
theorem edits_eq (t : Trimmer) (hfits : Sheet.Fits source rules) :
    t.edits source rules =
      match (t.directives rules).find? fun x => (Directive.read? x.2.value).isNone with
      | some (_, d) => .error (.malformedDirective d.property d.value d.position)
      | none => .ok (sortEdits ((t.directives rules).map (t.editsOf source))) := by
  rw [edits, outcomes_snd]
  split
  next heq =>
    split at heq
    · simp_all
    · simp at heq
  next heq =>
    split at heq
    · simp at heq
    next hnone =>
    obtain rfl := Except.ok.inj heq
    simp only [(inOrder_sortEdits t hfits).validate_eq_ok]

end Trimmer

end LeadingTrim

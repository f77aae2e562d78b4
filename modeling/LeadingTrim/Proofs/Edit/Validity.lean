/-
# What the check of edits reports

Edits are valid when each is sound and each begins behind all in front of it, not only behind its
neighbour (`AreValid`). The check accepts just the valid lists. Of another list it finds the
first edit with which the edits in front of it are not valid any more, and reports the first rule
that this edit breaks: its range, the edit directly in front of it, the number of its origins, the
first origin outside the text (`Breaks`). Both are `validate_outcome`. The check goes along the list
with what is in front, so the induction carries that the edits in front are valid.
-/

import LeadingTrim.Proofs.Edit.Apart

namespace LeadingTrim.Edit

/-- Each edit is sound and begins behind all in front of it. -/
structure AreValid (inputSize : Nat) (edits : List Edit) : Prop where
  sound : ∀ e ∈ edits, e.IsSound inputSize
  order : edits.Pairwise fun a b => a.stop ≤ b.start

/-- The range of the edit is not reversed and lies in the text. -/
def HasRange (inputSize : Nat) (e : Edit) : Prop := e.start ≤ e.stop ∧ e.stop ≤ inputSize

instance (inputSize : Nat) (e : Edit) : Decidable (e.HasRange inputSize) :=
  inferInstanceAs (Decidable (e.start ≤ e.stop ∧ e.stop ≤ inputSize))

/-- The edit begins behind the last one of those in front. -/
def Follows (front : List Edit) (e : Edit) : Prop := ∀ p, front.getLast? = some p → p.stop ≤ e.start

/-- The fault of an edit behind others: the first rule that it breaks. -/
inductive Breaks (inputSize : Nat) (front : List Edit) (e : Edit) : Fault → Prop
  | range (h : ¬ e.HasRange inputSize) :
    Breaks inputSize front e (.range front.length e.start e.stop inputSize)
  | overlap {p : Edit} (hrange : e.HasRange inputSize) (hp : front.getLast? = some p)
    (h : e.start < p.stop) : Breaks inputSize front e (.overlap p.start p.stop e.start e.stop)
  | originCount (hrange : e.HasRange inputSize) (hfollows : e.Follows front)
    (h : e.origins.length ≠ e.text.byteSize) :
    Breaks inputSize front e (.originCount front.length e.origins.length e.text.byteSize)
  | originOutside {inside rest : List Nat} {n : Nat} (hrange : e.HasRange inputSize)
    (hfollows : e.Follows front) (hlength : e.origins.length = e.text.byteSize)
    (hgiven : e.origins.filterMap id = inside ++ n :: rest) (hinside : ∀ m ∈ inside, m < inputSize)
    (h : inputSize ≤ n) : Breaks inputSize front e (.originOutside front.length n inputSize)

variable {inputSize : Nat} {front edits : List Edit} {e : Edit} {fault : Fault}

/-! ## One edit -/

theorem not_hasRange_iff :
    ¬ e.HasRange inputSize ↔ (e.stop < e.start || inputSize < e.stop) = true := by
  rw [HasRange, Bool.or_eq_true, decide_eq_true_eq, decide_eq_true_eq]
  omega

theorem follows_iff :
    e.Follows front ↔ (front.getLast?.filter fun p => e.start < p.stop) = none := by
  simp only [Follows, Option.filter_eq_none_iff, decide_eq_true_eq, Nat.not_lt]

/-- What is reported for an edit is the first rule that it breaks. -/
theorem fault?_eq_some_iff :
    fault? inputSize front.length front.getLast? e = some fault ↔
      Breaks inputSize front e fault := by
  constructor
  · intro h
    unfold fault? at h
    split at h
    next hrange =>
      cases h
      exact .range (not_hasRange_iff.mpr hrange)
    next hrange =>
    have hfits : e.HasRange inputSize := Decidable.of_not_not (mt not_hasRange_iff.mp hrange)
    split at h
    next p hp =>
      cases h
      obtain ⟨hlast, hlt⟩ := Option.filter_eq_some_iff.mp hp
      exact .overlap hfits hlast (of_decide_eq_true hlt)
    next hnone =>
    have hfollows : e.Follows front := follows_iff.mpr hnone
    split at h
    next hlength =>
      cases h
      exact .originCount hfits hfollows hlength
    next hlength =>
      obtain ⟨n, hfind, rfl⟩ := Option.map_eq_some_iff.mp h
      obtain ⟨hn, inside, rest, hgiven, hinside⟩ := List.find?_eq_some_iff_append.mp hfind
      exact .originOutside hfits hfollows (Decidable.of_not_not hlength) hgiven
        (fun m hm => by simpa using hinside m hm) (of_decide_eq_true hn)
  · intro h
    have hfits (hrange : e.HasRange inputSize) :
        ¬ (e.stop < e.start || inputSize < e.stop) = true :=
      mt not_hasRange_iff.mpr (not_not_intro hrange)
    cases h with
    | range h => rw [fault?, if_pos (not_hasRange_iff.mp h)]
    | overlap hrange hp h =>
      rw [fault?, if_neg (hfits hrange), hp]
      simp [Option.filter, h]
    | originCount hrange hfollows h =>
      rw [fault?, if_neg (hfits hrange), follows_iff.mp hfollows]
      simp [h]
    | originOutside hrange hfollows hlength hgiven hinside h =>
      have hfind : ((e.origins.filterMap id).find? fun origin => inputSize ≤ origin) = some _ :=
        List.find?_eq_some_iff_append.mpr ⟨decide_eq_true h, _, _, hgiven, by simpa using hinside⟩
      rw [fault?, if_neg (hfits hrange), follows_iff.mp hfollows, hfind]
      simp [hlength]

/-! ## Valid lists -/

theorem AreValid.of_append {rest : List Edit} (h : AreValid inputSize (front ++ rest)) :
    AreValid inputSize front :=
  ⟨fun a ha => h.sound a (List.mem_append_left _ ha), (List.pairwise_append.mp h.order).1⟩

/-- Behind valid edits an edit is valid if it begins behind the last of them: no other one ends
later. -/
theorem areValid_concat_iff (h : AreValid inputSize front) :
    AreValid inputSize (front ++ [e]) ↔
      fault? inputSize front.length front.getLast? e = none := by
  rw [fault?_eq_none_iff]
  constructor
  · intro hall
    refine ⟨hall.sound e (by simp), fun p hp => ?_⟩
    exact (List.pairwise_append.mp hall.order).2.2 p (List.mem_of_getLast? hp) e (by simp)
  · rintro ⟨hsound, hlast⟩
    have hbehind : ∀ p ∈ front, p.stop ≤ e.start := by
      intro p hp
      obtain ⟨init, last, rfl⟩ : ∃ init last, front = init ++ [last] :=
        ⟨_, _, (List.dropLast_concat_getLast (List.ne_nil_of_mem hp)).symm⟩
      have hstop := hlast last (by simp)
      rcases List.mem_append.mp hp with hp | hp
      · have horder := (List.pairwise_append.mp h.order).2.2 p hp last (by simp)
        have hrange := (h.sound last (by simp)).start_le_stop
        omega
      · rwa [List.mem_singleton.mp hp]
    refine ⟨fun a ha => ?_, List.pairwise_append.mpr ⟨h.order, List.pairwise_singleton _ _, ?_⟩⟩
    · rcases List.mem_append.mp ha with ha | ha
      · exact h.sound a ha
      · rwa [List.mem_singleton.mp ha]
    · intro p hp a ha
      rw [List.mem_singleton.mp ha]
      exact hbehind p hp

/-! ## The check -/

theorem firstFault?_cons_eq_some_iff {edits : List Edit} :
    firstFault? inputSize front.length front.getLast? (e :: edits) = some fault ↔
      fault? inputSize front.length front.getLast? e = some fault ∨
        fault? inputSize front.length front.getLast? e = none ∧
          firstFault? inputSize (front ++ [e]).length (front ++ [e]).getLast? edits =
            some fault := by
  rw [firstFault?, List.length_append, List.length_singleton, List.getLast?_concat]
  cases fault? inputSize front.length front.getLast? e <;> simp

/-- Behind valid edits the fault is that of the first edit which is not valid behind those in front
of it. -/
theorem firstFault?_eq_some_iff (h : AreValid inputSize front) :
    firstFault? inputSize front.length front.getLast? edits = some fault ↔
      ∃ first e rest, edits = first ++ e :: rest ∧ AreValid inputSize (front ++ first) ∧
        ¬ AreValid inputSize (front ++ first ++ [e]) ∧
        Breaks inputSize (front ++ first) e fault := by
  induction edits generalizing front with
  | nil => simp [firstFault?]
  | cons a edits ih =>
    rw [firstFault?_cons_eq_some_iff]
    constructor
    · rintro (hfault | ⟨hnone, hrest⟩)
      · refine ⟨[], a, edits, rfl, by simpa using h, ?_,
          by simpa using fault?_eq_some_iff.mp hfault⟩
        rw [List.append_nil, areValid_concat_iff h, hfault]
        exact Option.some_ne_none fault
      · obtain ⟨first, e, rest, rfl, hvalid, hnot, hbreaks⟩ :=
          (ih ((areValid_concat_iff h).mpr hnone)).mp hrest
        have hfront : front ++ [a] ++ first = front ++ a :: first := by simp
        rw [hfront] at hvalid hnot hbreaks
        exact ⟨a :: first, e, rest, rfl, hvalid, hnot, hbreaks⟩
    · rintro ⟨first, e, rest, hsplit, hvalid, hnot, hbreaks⟩
      cases first with
      | nil =>
        obtain ⟨rfl, rfl⟩ := List.cons.inj hsplit
        rw [List.append_nil] at hbreaks
        exact Or.inl (fault?_eq_some_iff.mpr hbreaks)
      | cons b first =>
        obtain ⟨rfl, rfl⟩ := List.cons.inj hsplit
        have hfront : front ++ a :: first = front ++ [a] ++ first := by simp
        rw [hfront] at hvalid hnot hbreaks
        have hhead := hvalid.of_append
        exact Or.inr ⟨(areValid_concat_iff h).mp hhead,
          (ih hhead).mpr ⟨first, e, rest, rfl, hvalid, hnot, hbreaks⟩⟩

/-- The check accepts valid edits only, and all of them. Else it reports the first edit with which
the edits in front of it are not valid any more, by the first rule that this edit breaks. -/
theorem validate_outcome (inputSize : Nat) (edits : List Edit) :
    (validate inputSize edits = .ok () ↔ AreValid inputSize edits) ∧
    ∀ fault, validate inputSize edits = .error fault ↔
      ∃ front e rest, edits = front ++ e :: rest ∧ AreValid inputSize front ∧
        ¬ AreValid inputSize (front ++ [e]) ∧ Breaks inputSize front e fault := by
  have hnil : AreValid inputSize [] := ⟨by simp, List.Pairwise.nil⟩
  refine ⟨validate_eq_ok_iff_pairwise.trans ⟨fun h => ⟨h.1, h.2⟩, fun h => ⟨h.sound, h.order⟩⟩, ?_⟩
  intro fault
  have hfirst : firstFault? inputSize 0 none edits = some fault ↔ _ := firstFault?_eq_some_iff hnil
  simp only [List.nil_append] at hfirst
  rw [← hfirst, validate]
  cases firstFault? inputSize 0 none edits <;> simp

end LeadingTrim.Edit

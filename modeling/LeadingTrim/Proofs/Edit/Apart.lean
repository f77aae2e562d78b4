/-
# Edits that are apart

Two edits are apart when one ends where the other begins or before. Edits that are pairwise apart
and sorted by their ranges come one behind the other (`pairwise_stop_le_start`), which is what the
check of a list of edits looks at (`validate_eq_ok_iff_pairwise`). Applying such a list revises the
text: each replacement is put where its edit begins, and what an edit covers is left out
(`applyAll_eq_revise`).
-/

import LeadingTrim.Edit.Validity
import LeadingTrim.Proofs.Edit.Cut

namespace LeadingTrim.Edit

/-- One of two edits ends before the other begins. -/
def Apart (a b : Edit) : Prop := a.stop ≤ b.start ∨ b.stop ≤ a.start

theorem Apart.symm {a b : Edit} (h : Apart a b) : Apart b a := Or.symm h

/-- An edit whose range lies in the text, and whose origins are as many as its bytes and lie in the
text as well. -/
structure IsSound (inputSize : Nat) (e : Edit) : Prop where
  start_le_stop : e.start ≤ e.stop
  stop_le : e.stop ≤ inputSize
  length_origins : e.origins.length = e.text.byteSize
  origin_lt : ∀ n, some n ∈ e.origins → n < inputSize

theorem isSound_delete {start stop inputSize : Nat} (h : start ≤ stop) (hstop : stop ≤ inputSize) :
    (delete start stop).IsSound inputSize :=
  ⟨h, hstop, rfl, by simp [delete]⟩

theorem isSound_synthesize {start stop inputSize origin : Nat} (text : Text) (h : start ≤ stop)
    (hstop : stop ≤ inputSize) (horigin : origin < inputSize) :
    (synthesize start stop text origin).IsSound inputSize := by
  refine ⟨h, hstop, by simp [synthesize], fun n hn => ?_⟩
  obtain rfl : n = origin := by simpa using List.eq_of_mem_replicate hn
  exact horigin

/-! ## The check -/

/-- An edit behind another breaks no rule exactly if it is sound and begins behind the other. -/
theorem fault?_eq_none_iff {inputSize index : Nat} {previous : Option Edit} {e : Edit} :
    fault? inputSize index previous e = none ↔
      e.IsSound inputSize ∧ ∀ p ∈ previous, p.stop ≤ e.start := by
  have horigin : ((e.origins.filterMap id).find? fun n => inputSize ≤ n) = none ↔
      ∀ n, some n ∈ e.origins → n < inputSize := by
    rw [List.find?_eq_none]
    simp
  constructor
  · intro h
    unfold fault? at h
    split at h
    · simp at h
    next hrange =>
    simp only [Bool.or_eq_true, decide_eq_true_eq, not_or, Nat.not_lt] at hrange
    split at h
    · simp at h
    next hprevious =>
    split at h
    · simp at h
    next hlength =>
    rw [Option.map_eq_none_iff, horigin] at h
    refine ⟨⟨hrange.1, hrange.2, by simpa using hlength, h⟩, fun p hp => ?_⟩
    rw [Option.mem_def.mp hp, Option.filter_eq_none_iff] at hprevious
    simpa using hprevious p rfl
  · rintro ⟨hsound, hprevious⟩
    have hrange : (e.stop < e.start || inputSize < e.stop : Bool) = false := by
      simpa using ⟨hsound.start_le_stop, hsound.stop_le⟩
    have hfilter : (previous.filter fun p => e.start < p.stop) = none := by
      rw [Option.filter_eq_none_iff]
      intro p hp
      simpa using hprevious p hp
    unfold fault?
    simp only [hrange, hfilter, hsound.length_origins, Bool.false_eq_true, if_false, ne_eq,
      not_true_eq_false, Option.map_eq_none_iff]
    exact horigin.mpr hsound.origin_lt

/-- No edit has a fault exactly if all are sound and each begins behind all in front of it. Only
neighbours are compared, but a sound edit does not end before it begins. -/
theorem firstFault?_eq_none_iff {inputSize index : Nat} {previous : Option Edit}
    {edits : List Edit} :
    firstFault? inputSize index previous edits = none ↔
      (∀ e ∈ edits, e.IsSound inputSize) ∧ (∀ p ∈ previous, ∀ e ∈ edits, p.stop ≤ e.start) ∧
        edits.Pairwise fun a b => a.stop ≤ b.start := by
  induction edits generalizing index previous with
  | nil => simp [firstFault?]
  | cons e edits ih =>
    have hcons : firstFault? inputSize index previous (e :: edits) = none ↔
        fault? inputSize index previous e = none ∧
          firstFault? inputSize (index + 1) (some e) edits = none := by
      rw [firstFault?]
      cases fault? inputSize index previous e <;> simp
    rw [hcons, fault?_eq_none_iff, ih]
    simp only [List.forall_mem_cons, List.pairwise_cons, Option.mem_some, forall_eq']
    constructor
    · rintro ⟨⟨hsound, hprevious⟩, hrest, hfirst, horder⟩
      refine ⟨⟨hsound, hrest⟩, fun p hp => ⟨hprevious p hp, fun a ha => ?_⟩, hfirst, horder⟩
      have hpe := hprevious p hp
      have hle := hsound.start_le_stop
      have hea := hfirst a ha
      omega
    · rintro ⟨⟨hsound, hrest⟩, hprevious, hfirst, horder⟩
      exact ⟨⟨hsound, fun p hp => (hprevious p hp).1⟩, hrest, hfirst, horder⟩

/-- Edits are valid exactly if they are sound and one behind the other. -/
theorem validate_eq_ok_iff_pairwise {inputSize : Nat} {edits : List Edit} :
    validate inputSize edits = .ok () ↔
      (∀ e ∈ edits, e.IsSound inputSize) ∧ edits.Pairwise fun a b => a.stop ≤ b.start := by
  have hnone : firstFault? inputSize 0 none edits = none ↔ _ := firstFault?_eq_none_iff
  unfold validate
  cases hfault : firstFault? inputSize 0 none edits with
  | none => simpa [hfault] using hnone
  | some fault => simpa [hfault] using hnone

/-! ## The order -/

/-- Of two edits that are apart the one with the smaller range comes first as a whole. An insertion
where the other begins or ends is the case to look at. -/
theorem Apart.stop_le_start {a b : Edit} (h : Apart a b) (hb : b.start ≤ b.stop)
    (hle : a.start < b.start ∨ a.start = b.start ∧ a.stop ≤ b.stop) :
    a.stop ≤ b.start := by
  rcases h with h | h
  · exact h
  · omega

theorem pairwise_stop_le_start {edits : List Edit} (hsound : ∀ e ∈ edits, e.start ≤ e.stop)
    (hapart : edits.Pairwise Apart)
    (hle : edits.Pairwise fun a b => a.start < b.start ∨ a.start = b.start ∧ a.stop ≤ b.stop) :
    edits.Pairwise fun a b => a.stop ≤ b.start :=
  (hapart.and hle).imp_of_mem fun _ hb h =>
    h.1.stop_le_start (hsound _ hb) h.2

/-- Edits of a text that are sound, stand between characters and come one behind the other. -/
structure InOrder (input : Text) (edits : List Edit) : Prop where
  sound : ∀ e ∈ edits, e.IsSound input.byteSize
  isBoundary : ∀ e ∈ edits, input.IsBoundary e.start ∧ input.IsBoundary e.stop
  order : edits.Pairwise fun a b => a.stop ≤ b.start

theorem InOrder.validate_eq_ok {input : Text} {edits : List Edit} (h : InOrder input edits) :
    validate input.byteSize edits = .ok () :=
  validate_eq_ok_iff_pairwise.mpr ⟨h.sound, h.order⟩

theorem inOrder_of_validate {input : Text} {edits : List Edit}
    (h : validate input.byteSize edits = .ok ())
    (hboundary : ∀ e ∈ edits, input.IsBoundary e.start ∧ input.IsBoundary e.stop) :
    InOrder input edits :=
  have hpairs := validate_eq_ok_iff_pairwise.mp h
  ⟨hpairs.1, hboundary, hpairs.2⟩

theorem InOrder.cuts {input : Text} {edits : List Edit} (h : InOrder input edits) :
    Cuts 0 input edits :=
  cuts_of_pairwise [] input edits h.order fun e he =>
    ⟨Nat.zero_le _, (h.sound e he).start_le_stop, h.isBoundary e he⟩

/-! ## What applying edits does -/

/-- The replacements of the edits that begin at an offset. -/
def putAt (edits : List Edit) (offset : Nat) : Text :=
  (edits.filter fun e => e.start = offset).flatMap Edit.text

/-- Whether an edit covers the character at an offset. -/
def covers (edits : List Edit) (offset : Nat) : Bool :=
  edits.any fun e => e.start ≤ offset && offset < e.stop

theorem putAt_eq_nil {edits : List Edit} {offset : Nat} (h : ∀ e ∈ edits, e.start ≠ offset) :
    putAt edits offset = [] := by
  have : (edits.filter fun e => e.start = offset) = [] := by simpa using h
  rw [putAt, this, List.flatMap_nil]

theorem putAt_cons_of_ne {e : Edit} {offset : Nat} (edits : List Edit) (h : e.start ≠ offset) :
    putAt (e :: edits) offset = putAt edits offset := by
  simp [putAt, h]

theorem putAt_cons_self (e : Edit) (edits : List Edit) :
    putAt (e :: edits) e.start = e.text ++ putAt edits e.start := by
  simp [putAt]

theorem covers_eq_false {edits : List Edit} {offset : Nat} (h : ∀ e ∈ edits, offset < e.start) :
    covers edits offset = false := by
  simp only [covers, List.any_eq_false, Bool.and_eq_true, decide_eq_true_eq]
  intro e he
  have := h e he
  omega

theorem covers_cons_of_stop_le {e : Edit} {offset : Nat} (edits : List Edit)
    (h : e.stop ≤ offset) : covers (e :: edits) offset = covers edits offset := by
  have : ¬ offset < e.stop := by omega
  simp [covers, this]

/-- Edits that cut the second part of a text. -/
theorem Cuts.applyFrom_eq_revise {offset : Nat} {t : Text} {edits : List Edit}
    (h : Cuts offset t edits) {before : Text} (hbefore : before.byteSize = offset) :
    applyFrom (before ++ t) offset edits =
      Text.revise (putAt edits) (covers edits) offset t := by
  induction h generalizing before with
  | nil offset t =>
    have hkept : Text.revise (putAt []) (covers []) offset (t ++ []) = t ++ [] :=
      Text.revise_append_of_kept (fun _ _ _ => rfl) (fun _ _ _ => rfl)
    rw [List.append_nil] at hkept
    rw [hkept, applyFrom, ← hbefore, Text.dropBytes_byteSize_append]
  | @cons offset kept gone t e rest hstart hstop hrest ih =>
    have hbehind : (before ++ kept ++ gone).byteSize = e.stop := by
      simp only [Text.byteSize_append]
      omega
    have happly := ih hbehind
    have hlater := hrest.le_start
    subst hbefore
    calc applyFrom (before ++ (kept ++ gone ++ t)) before.byteSize (e :: rest)
        = kept ++ e.text ++ Text.revise (putAt rest) (covers rest) e.stop t := by
          rw [applyFrom, slice_of_cut hstart, Nat.max_eq_right (by omega), ← happly]
          simp
      _ = kept ++ e.text ++ Text.revise (putAt rest) (covers (e :: rest)) e.stop t := by
          rw [Text.revise_congr (fun _ _ => rfl) fun n hn => (covers_cons_of_stop_le rest hn).symm]
      _ = kept ++ e.text
            ++ Text.revise (putAt rest) (covers (e :: rest)) e.start (gone ++ t) := by
          rw [Text.revise_append_of_omitted (s := gone), ← hstop]
          · intro n hn hlt
            refine putAt_eq_nil fun a ha => ?_
            have := hlater a ha
            omega
          · intro n hn hlt
            simp [covers, hn, show n < e.stop by omega]
      _ = kept ++ Text.revise (putAt (e :: rest)) (covers (e :: rest)) e.start (gone ++ t) := by
          rw [List.append_assoc, Text.revise_eq_append (putAt_cons_self e rest)
            fun n hn => putAt_cons_of_ne rest (by omega)]
      _ = Text.revise (putAt (e :: rest)) (covers (e :: rest)) before.byteSize
            (kept ++ gone ++ t) := by
          have hfirst : ∀ a ∈ e :: rest, e.start ≤ a.start := by
            intro a ha
            rcases List.mem_cons.mp ha with rfl | ha
            · exact Nat.le_refl _
            · have := hlater a ha
              omega
          rw [List.append_assoc, Text.revise_append_of_kept (s := kept), ← hstart]
          · intro n _ hlt
            refine putAt_eq_nil fun a ha => ?_
            have := hfirst a ha
            omega
          · intro n _ hlt
            refine covers_eq_false fun a ha => ?_
            have := hfirst a ha
            omega

/-- Edits in order revise the text: each replacement is put where its edit begins, and what an edit
covers is left out. -/
theorem InOrder.applyAll_eq_revise {input : Text} {edits : List Edit} (h : InOrder input edits) :
    applyAll input edits = input.revise (putAt edits) (covers edits) 0 :=
  h.cuts.applyFrom_eq_revise Text.byteSize_nil

end LeadingTrim.Edit

/-
# What edits cut out of a text

To apply edits is to cut the text in front of each of them out of the old text, and what is left
behind the last (`slices`). The check of edits keeps these ranges inside the text, but it knows the
number of bytes only: whether a range begins and ends between characters it does not see. The edits
can be applied exactly if all ranges do, and then make the text that `applyAll` gives
(`applied?_of_validate`). Edits that begin and end between characters are always fine; so are those
of a run.
-/

import LeadingTrim.Proofs.Edit.Apart

namespace LeadingTrim

namespace Text

theorem dropBytes_of_byteSize_le {t : Text} {n : Nat} (h : t.byteSize ≤ n) :
    t.dropBytes n = [] := by
  induction t generalizing n with
  | nil => exact dropBytes_nil n
  | cons c t ih =>
    have hpos := c.utf8Size_pos
    rw [byteSize_cons] at h
    cases n with
    | zero => omega
    | succ n => exact ih (by omega)

/-- The piece from a boundary to the end. -/
theorem slice_min_byteSize {t : Text} {n : Nat} (h : t.IsBoundary (min n t.byteSize)) :
    t.slice (min n t.byteSize) t.byteSize = t.dropBytes n := by
  obtain ⟨u, v, rfl, hu⟩ := h
  rw [byteSize_append] at hu ⊢
  have hpiece : (u ++ v).slice u.byteSize (u.byteSize + v.byteSize) = v :=
    slice_eq_of_append (List.append_nil _).symm rfl rfl
  rw [← hu, hpiece]
  by_cases hle : n ≤ u.byteSize + v.byteSize
  · rw [← show u.byteSize = n by omega, dropBytes_byteSize_append]
  · -- behind the end there is nothing, and the boundary is the end
    rw [dropBytes_of_byteSize_le (by rw [byteSize_append]; omega)]
    cases v with
    | nil => rfl
    | cons c v =>
      have hpos := c.utf8Size_pos
      rw [byteSize_cons] at hu hle
      omega

end Text

namespace Edit

/-- The ranges that are cut out of a text from an offset on when edits are applied to it. -/
def slicesFrom (inputSize : Nat) : Nat → List Edit → List (Nat × Nat)
  | cursor, [] => [(min cursor inputSize, inputSize)]
  | cursor, e :: rest =>
    (if cursor < e.start then [(cursor, e.start)] else [])
      ++ slicesFrom inputSize (max cursor e.stop) rest

/-- The ranges that are cut out of a text when edits are applied to it. -/
def slices (inputSize : Nat) (edits : List Edit) : List (Nat × Nat) := slicesFrom inputSize 0 edits

variable {input out : Text} {inputSize cursor : Nat} {edits : List Edit}

/-- The ranges of the edits keep what is cut out inside the text. -/
theorem range_of_mem_slicesFrom (hedits : ∀ e ∈ edits, e.start ≤ e.stop ∧ e.stop ≤ inputSize) :
    ∀ s ∈ slicesFrom inputSize cursor edits, s.1 ≤ s.2 ∧ s.2 ≤ inputSize := by
  induction edits generalizing cursor with
  | nil =>
    intro s hs
    rw [List.mem_singleton.mp hs]
    exact ⟨Nat.min_le_right _ _, Nat.le_refl _⟩
  | cons e edits ih =>
    intro s hs
    obtain ⟨hle, hstop⟩ := hedits e List.mem_cons_self
    rcases List.mem_append.mp hs with hs | hs
    · split at hs
      · rw [List.mem_singleton.mp hs]
        exact ⟨by omega, by omega⟩
      · cases hs
    · exact ih (fun a ha => hedits a (List.mem_cons_of_mem _ ha)) s hs

/-- Edits between characters cut between characters. -/
theorem isBoundary_of_mem_slicesFrom (hcursor : input.IsBoundary cursor)
    (hedits : ∀ e ∈ edits, input.IsBoundary e.start ∧ input.IsBoundary e.stop) :
    ∀ s ∈ slicesFrom input.byteSize cursor edits, input.IsBoundary s.1 ∧ input.IsBoundary s.2 := by
  induction edits generalizing cursor with
  | nil =>
    intro s hs
    rw [List.mem_singleton.mp hs, Nat.min_eq_left hcursor.le]
    exact ⟨hcursor, input, [], (List.append_nil _).symm, rfl⟩
  | cons e edits ih =>
    intro s hs
    obtain ⟨hstart, hstop⟩ := hedits e List.mem_cons_self
    have hmax : input.IsBoundary (max cursor e.stop) := by
      rcases Nat.le_total cursor e.stop with hle | hle
      · rwa [Nat.max_eq_right hle]
      · rwa [Nat.max_eq_left hle]
    rcases List.mem_append.mp hs with hs | hs
    · split at hs
      · rw [List.mem_singleton.mp hs]
        exact ⟨hcursor, hstart⟩
      · cases hs
    · exact ih hmax (fun a ha => hedits a (List.mem_cons_of_mem _ ha)) s hs

theorem kept?_eq_some_iff {start : Nat} {kept : Text} :
    kept? input cursor start = some kept ↔
      (∀ s ∈ if cursor < start then [(cursor, start)] else [],
        s.1 ≤ s.2 ∧ input.IsBoundary s.1 ∧ input.IsBoundary s.2) ∧
      kept = input.slice cursor start := by
  unfold kept?
  split
  · rw [Text.slice?_eq_some_iff, List.forall_mem_singleton]
  next hle =>
    rw [Text.slice, Nat.sub_eq_zero_of_le (Nat.le_of_not_lt hle), Text.takeBytes_zero]
    simp [eq_comm]

/-- Edits can be applied exactly if what they cut out lies between characters. -/
theorem appliedFrom?_eq_some_iff :
    appliedFrom? input cursor edits = some out ↔
      (∀ s ∈ slicesFrom input.byteSize cursor edits,
        s.1 ≤ s.2 ∧ input.IsBoundary s.1 ∧ input.IsBoundary s.2) ∧
      out = applyFrom input cursor edits := by
  induction edits generalizing cursor out with
  | nil =>
    rw [appliedFrom?, Text.slice?_eq_some_iff, slicesFrom, List.forall_mem_singleton, applyFrom]
    refine and_congr_right fun h => ?_
    rw [Text.slice_min_byteSize h.2.1]
  | cons e edits ih =>
    rw [appliedFrom?, slicesFrom, List.forall_mem_append, applyFrom]
    simp only [Option.bind_eq_bind, Option.bind_eq_some_iff, Option.pure_def, Option.some.injEq,
      kept?_eq_some_iff, ih]
    constructor
    · rintro ⟨kept, ⟨hfront, rfl⟩, behind, ⟨hrest, rfl⟩, rfl⟩
      exact ⟨⟨hfront, hrest⟩, rfl⟩
    · rintro ⟨⟨hfront, hrest⟩, rfl⟩
      exact ⟨_, ⟨hfront, rfl⟩, _, ⟨hrest, rfl⟩, rfl⟩

/-- Edits in order can be applied. -/
theorem InOrder.applied?_eq (h : InOrder input edits) :
    applied? input edits = some (applyAll input edits) := by
  have hrange : ∀ s ∈ slices input.byteSize edits, s.1 ≤ s.2 ∧ s.2 ≤ input.byteSize :=
    range_of_mem_slicesFrom fun e he => ⟨(h.sound e he).start_le_stop, (h.sound e he).stop_le⟩
  have hboundary := isBoundary_of_mem_slicesFrom (Text.isBoundary_zero input) h.isBoundary
  exact appliedFrom?_eq_some_iff.mpr ⟨fun s hs => ⟨(hrange s hs).1, hboundary s hs⟩, rfl⟩

/-- Of valid edits all that is cut out lies in the text. They can be applied exactly if all of it
also begins and ends between characters, as it does when the edits do. -/
theorem applied?_of_validate (h : validate input.byteSize edits = .ok ()) :
    (∀ s ∈ slices input.byteSize edits, s.1 ≤ s.2 ∧ s.2 ≤ input.byteSize) ∧
    (∀ out, applied? input edits = some out ↔
      (∀ s ∈ slices input.byteSize edits, input.IsBoundary s.1 ∧ input.IsBoundary s.2) ∧
        out = applyAll input edits) ∧
    ((∀ e ∈ edits, input.IsBoundary e.start ∧ input.IsBoundary e.stop) →
      applied? input edits = some (applyAll input edits)) := by
  have hpairs := validate_eq_ok_iff_pairwise.mp h
  have hrange : ∀ s ∈ slices input.byteSize edits, s.1 ≤ s.2 ∧ s.2 ≤ input.byteSize :=
    range_of_mem_slicesFrom fun e he => ⟨(hpairs.1 e he).start_le_stop, (hpairs.1 e he).stop_le⟩
  refine ⟨hrange, fun out => ?_, fun hedits => (inOrder_of_validate h hedits).applied?_eq⟩
  rw [applied?, appliedFrom?_eq_some_iff]
  refine and_congr_left fun _ => forall₂_congr fun s hs => ?_
  exact and_iff_right (hrange s hs).1

/-- A text with characters of two and four bytes. -/
def astralText : Text := "é🙂a".toList

/-- An insertion and a removal between characters. -/
def betweenEdits : List Edit := [synthesize 2 2 "xé".toList 0, delete 2 6]

/-- Two removals that share a character, of whose parts nothing is kept. -/
def sharedEdits : List Edit := [delete 0 1, delete 1 2]

theorem applied?_of_validate_astralText :
    (validate astralText.byteSize betweenEdits = .ok () ∧
      (∀ e ∈ betweenEdits, astralText.IsBoundary e.start ∧ astralText.IsBoundary e.stop) ∧
      applied? astralText betweenEdits = some "éxéa".toList) ∧
    (validate astralText.byteSize sharedEdits = .ok () ∧ ¬ astralText.IsBoundary 1 ∧
      applied? astralText sharedEdits = some "🙂a".toList) := by
  have hbetween : validate astralText.byteSize betweenEdits = .ok () := rfl
  have hshared : validate astralText.byteSize sharedEdits = .ok () := rfl
  have hboundary : ∀ e ∈ betweenEdits,
      astralText.IsBoundary e.start ∧ astralText.IsBoundary e.stop := by decide
  exact ⟨⟨hbetween, hboundary, (applied?_of_validate hbetween).2.2 hboundary⟩,
    hshared, by decide, ((applied?_of_validate hshared).2.1 _).mpr (by decide)⟩

/-- A valid edit that begins inside a character cannot be applied, even if it removes nothing. -/
theorem not_applied?_of_validate_insideCharacter :
    ¬ ∀ (input : Text) (edits : List Edit), validate input.byteSize edits = .ok () →
      ∃ out, applied? input edits = some out := by
  intro h
  obtain ⟨out, hout⟩ := h ['é'] [delete 1 1] rfl
  exact absurd hout (by rw [show applied? ['é'] [delete 1 1] = none by decide]; exact nofun)

end Edit

end LeadingTrim

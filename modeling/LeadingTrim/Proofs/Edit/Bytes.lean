/-
# The bytes of an edited text

The edited text is made of text, its layout of lengths alone. Here the two are compared byte by
byte. A byte of the edited text is put there by an edit, stands in its span and has its origin
(`Layout.IsPut`), or it is kept: it stands in no span, and the layout leads from it to an equal byte
of the old text and from there back (`Layout.IsKept`). There is no third case, a byte of the old
text leads nowhere exactly if an edit covers it, and kept bytes keep their order. This is
`layout_applyAll`; all of it is proved along the cut that the edits make.
-/

import LeadingTrim.Proofs.Edit.Target

namespace LeadingTrim

/-! ## Bytes -/

namespace Text

/-- The bytes of the UTF-8 form. -/
def bytes (t : Text) : List UInt8 := t.flatMap String.utf8EncodeChar

@[simp] theorem bytes_append (s t : Text) : bytes (s ++ t) = bytes s ++ bytes t :=
  List.flatMap_append

@[simp] theorem length_bytes (t : Text) : (bytes t).length = t.byteSize := by
  induction t with
  | nil => rfl
  | cons c t ih =>
    rw [bytes, List.flatMap_cons, List.length_append, String.length_utf8EncodeChar, ← bytes, ih,
      byteSize_cons]

end Text

namespace Edit

/-! ## Along a cut -/

section Cut

variable {before kept gone t : Text} {e : Edit} {rest : List Edit}

theorem applyFrom_of_cut (hstart : e.start = before.byteSize + kept.byteSize)
    (hstop : e.stop = e.start + gone.byteSize) :
    applyFrom (before ++ (kept ++ gone ++ t)) before.byteSize (e :: rest) =
      kept ++ e.text ++ applyFrom (before ++ kept ++ gone ++ t) e.stop rest := by
  rw [applyFrom, slice_of_cut hstart, Nat.max_eq_right (by omega)]
  simp

variable {cursor inputSize : Nat}

theorem spansFrom_of_cut (out : Nat) (hstart : e.start = cursor + kept.byteSize)
    (hcursor : cursor ≤ e.stop) (hsound : e.IsSound inputSize) :
    spansFrom cursor out (e :: rest) =
      (e, out + kept.byteSize, out + kept.byteSize + e.text.byteSize) ::
        spansFrom e.stop (out + kept.byteSize + e.text.byteSize) rest := by
  have hkept : e.start - cursor = kept.byteSize := by omega
  simp only [spansFrom, hkept, hsound.length_origins, Nat.max_eq_right hcursor]

theorem targetFrom_of_cut (byte out : Nat) (hstart : e.start = cursor + kept.byteSize)
    (hcursor : cursor ≤ e.stop) (hsound : e.IsSound inputSize) :
    targetFrom inputSize byte cursor out (e :: rest) =
      if cursor ≤ byte ∧ byte < e.start then some (out + (byte - cursor))
      else targetFrom inputSize byte e.stop (out + kept.byteSize + e.text.byteSize) rest := by
  have hkept : e.start - cursor = kept.byteSize := by omega
  simp only [targetFrom, hkept, hsound.length_origins, Nat.max_eq_right hcursor, Bool.and_eq_true,
    decide_eq_true_eq]

end Cut

/-- An element of the middle one of three lists. -/
theorem getElem?_middle {α : Type} {l m n : List α} {a k : Nat} (hl : l.length = a)
    (hk : k < m.length) : (l ++ m ++ n)[a + k]? = m[k]? := by
  subst hl
  rw [List.append_assoc, List.getElem?_append_right (Nat.le_add_right _ _),
    Nat.add_sub_cancel_left, List.getElem?_append_left hk]

/-- An element of the last one of three lists. -/
theorem getElem?_behind {α : Type} {l m n : List α} {a k : Nat} (hlm : l.length + m.length = a) :
    (l ++ m ++ n)[a + k]? = n[k]? := by
  rw [List.getElem?_append_right (by rw [List.length_append]; omega), List.length_append, hlm,
    Nat.add_sub_cancel_left]

theorem length_keptRange (start stop : Nat) : (keptRange start stop).length = stop - start := by
  simp [keptRange]

/-- The origin of a byte of a range that is kept. -/
theorem getElem?_keptRange {start stop k : Nat} (hk : k < stop - start) :
    (keptRange start stop)[k]? = some (some (start + k)) := by
  simp [keptRange, hk]

/-- A replacement begins behind the text in front of all edits. -/
theorem le_of_mem_spansFrom {cursor out : Nat} {edits : List Edit} {span : Edit × Nat × Nat}
    (h : span ∈ spansFrom cursor out edits) : out ≤ span.2.1 := by
  induction edits generalizing cursor out with
  | nil => simp [spansFrom] at h
  | cons e edits ih =>
    rcases List.mem_cons.mp h with rfl | h
    · exact Nat.le_add_right _ _
    · have := ih h
      omega

/-! ## Where a byte of the old text goes -/

/-- A byte of the old text is in the new one behind the text in front of all edits. -/
theorem out_le_of_targetFrom {inputSize byte cursor out n : Nat} {edits : List Edit}
    (h : targetFrom inputSize byte cursor out edits = some n) : out ≤ n := by
  induction edits generalizing cursor out with
  | nil =>
    simp only [targetFrom, Option.ite_none_right_eq_some, Option.some.injEq] at h
    omega
  | cons e edits ih =>
    rw [targetFrom] at h
    split at h
    · have := Option.some.inj h
      omega
    · have := ih h
      omega

/-- Bytes that are kept keep their order. -/
theorem targetFrom_lt_targetFrom {inputSize byte byte' cursor out n n' : Nat} {edits : List Edit}
    (h : targetFrom inputSize byte cursor out edits = some n)
    (h' : targetFrom inputSize byte' cursor out edits = some n') (hlt : byte < byte') : n < n' := by
  induction edits generalizing cursor out with
  | nil =>
    simp only [targetFrom, Bool.and_eq_true, decide_eq_true_eq, Option.ite_none_right_eq_some,
      Option.some.injEq] at h h'
    omega
  | cons e edits ih =>
    have hle := le_of_targetFrom h
    simp only [targetFrom, Bool.and_eq_true, decide_eq_true_eq] at h h'
    split at h
    next hfront =>
      have hn := Option.some.inj h
      split at h'
      · -- both are in front of the edit
        have hn' := Option.some.inj h'
        omega
      · -- only the first one is
        have hn' := out_le_of_targetFrom h'
        omega
    next hbehind =>
      rw [if_neg (by omega)] at h'
      exact ih h h'

variable {input : Text} {edits : List Edit}

/-- A byte is removed exactly if an edit covers it. -/
theorem Cuts.targetFrom_eq_none_iff {offset inputSize byte : Nat} {t : Text} {edits : List Edit}
    (h : Cuts offset t edits) (hsound : ∀ e ∈ edits, e.IsSound inputSize) (out : Nat)
    (hle : offset ≤ byte) (hlt : byte < inputSize) :
    targetFrom inputSize byte offset out edits = none ↔
      ∃ e ∈ edits, e.start ≤ byte ∧ byte < e.stop := by
  induction h generalizing out with
  | nil => simp [targetFrom, hle, hlt]
  | @cons offset kept gone t e rest hstart hstop hrest ih =>
    have hlater := hrest.le_start
    rw [targetFrom_of_cut byte out hstart (by omega) (hsound e List.mem_cons_self)]
    rcases Nat.lt_or_ge byte e.start with hfront | hbehind
    · -- in front of the edit, and so of all edits
      rw [if_pos ⟨hle, hfront⟩]
      refine iff_of_false (Option.some_ne_none _) ?_
      rintro ⟨a, ha, hcover⟩
      rcases List.mem_cons.mp ha with rfl | ha
      · omega
      · have := hlater a ha
        omega
    · rw [if_neg (by omega)]
      rcases Nat.lt_or_ge byte e.stop with hinside | hbehind
      · -- covered by the edit
        refine iff_of_true ?_ ⟨e, List.mem_cons_self, by omega, hinside⟩
        rw [Option.eq_none_iff_forall_not_mem]
        intro n hn
        have := le_of_targetFrom hn
        omega
      · rw [ih (fun a ha => hsound a (List.mem_cons_of_mem _ ha)) _ hbehind]
        have hcover : ¬ (e.start ≤ byte ∧ byte < e.stop) := by omega
        simp [hcover]

/-- A byte that is kept stands in the edited text. -/
theorem Cuts.lt_of_targetFrom {offset inputSize byte n : Nat} {t : Text} {edits : List Edit}
    (h : Cuts offset t edits) (hsound : ∀ e ∈ edits, e.IsSound inputSize) {before : Text}
    (hbefore : before.byteSize = offset) (hsize : inputSize = (before ++ t).byteSize) {out : Nat}
    (htarget : targetFrom inputSize byte offset out edits = some n) :
    n < out + (applyFrom (before ++ t) offset edits).byteSize := by
  induction h generalizing before out with
  | nil offset t =>
    subst hbefore hsize
    simp only [targetFrom, Bool.and_eq_true, decide_eq_true_eq, Option.ite_none_right_eq_some,
      Option.some.injEq, Text.byteSize_append] at htarget
    rw [applyFrom, Text.dropBytes_byteSize_append]
    omega
  | @cons offset kept gone t e rest hstart hstop hrest ih =>
    subst hbefore
    have hbehind : (before ++ kept ++ gone).byteSize = e.stop := by
      simp only [Text.byteSize_append]
      omega
    rw [targetFrom_of_cut byte out hstart (by omega) (hsound e List.mem_cons_self)] at htarget
    rw [applyFrom_of_cut hstart hstop]
    simp only [Text.byteSize_append]
    split at htarget
    · have := Option.some.inj htarget
      omega
    · have := ih (fun a ha => hsound a (List.mem_cons_of_mem _ ha)) hbehind (by simpa using hsize)
        htarget
      omega

/-- A byte that is kept stands in no replacement. -/
theorem outside_of_targetFrom {inputSize byte cursor out n : Nat} {edits : List Edit}
    (h : targetFrom inputSize byte cursor out edits = some n) :
    ∀ span ∈ spansFrom cursor out edits, ¬ (span.2.1 ≤ n ∧ n < span.2.2) := by
  induction edits generalizing cursor out with
  | nil => simp [spansFrom]
  | cons e edits ih =>
    intro span hspan
    simp only [targetFrom, Bool.and_eq_true, decide_eq_true_eq] at h
    rw [spansFrom] at hspan
    split at h
    next hfront =>
      -- in front of the edit, and so of all replacements
      have hn := Option.some.inj h
      rcases List.mem_cons.mp hspan with rfl | hspan
      · dsimp only
        omega
      · have hle := le_of_mem_spansFrom hspan
        omega
    next hbehind =>
      rcases List.mem_cons.mp hspan with rfl | hspan
      · have hle := out_le_of_targetFrom h
        dsimp only
        omega
      · exact ih h span hspan

/-! ## Where a byte of the edited text comes from -/

/-- The layout has one origin for each byte of the edited text. -/
theorem Cuts.length_originsFrom {offset inputSize : Nat} {t : Text} {edits : List Edit}
    (h : Cuts offset t edits) (hsound : ∀ e ∈ edits, e.IsSound inputSize) {before : Text}
    (hbefore : before.byteSize = offset) (hsize : inputSize = (before ++ t).byteSize) :
    (originsFrom inputSize offset edits).length =
      (applyFrom (before ++ t) offset edits).byteSize := by
  induction h generalizing before with
  | nil offset t =>
    subst hbefore hsize
    rw [originsFrom, length_keptRange, applyFrom, Text.dropBytes_byteSize_append,
      Text.byteSize_append, Nat.add_sub_cancel_left]
  | @cons offset kept gone t e rest hstart hstop hrest ih =>
    subst hbefore
    have hbehind : (before ++ kept ++ gone).byteSize = e.stop := by
      simp only [Text.byteSize_append]
      omega
    have hlater := ih (fun a ha => hsound a (List.mem_cons_of_mem _ ha)) hbehind
      (by simpa using hsize)
    have he := hsound e List.mem_cons_self
    rw [originsFrom_of_cut hstart (by omega) he, applyFrom_of_cut hstart hstop]
    simp only [List.length_append, length_keptRange, he.length_origins, hlater,
      Text.byteSize_append, Nat.add_sub_cancel_left]

/-- Each byte of the edited text is put there or kept. The three cases of the step are the pieces
into which the first edit cuts the edited text. -/
theorem Cuts.put_or_kept {offset inputSize : Nat} {t : Text} {edits : List Edit}
    (h : Cuts offset t edits) (hsound : ∀ e ∈ edits, e.IsSound inputSize) {before : Text}
    (hbefore : before.byteSize = offset) (hsize : inputSize = (before ++ t).byteSize) (out : Nat)
    {k : Nat} (hk : k < (applyFrom (before ++ t) offset edits).byteSize) :
    (∃ e start stop j, (e, start, stop) ∈ spansFrom offset out edits ∧
        out + k = start + j ∧ out + k < stop ∧
        (applyFrom (before ++ t) offset edits).bytes[k]? = e.text.bytes[j]? ∧
        (originsFrom inputSize offset edits)[k]? = e.origins[j]?) ∨
      (∀ span ∈ spansFrom offset out edits, ¬ (span.2.1 ≤ out + k ∧ out + k < span.2.2)) ∧
        ∃ i, (originsFrom inputSize offset edits)[k]? = some (some i) ∧
          (applyFrom (before ++ t) offset edits).bytes[k]? = (before ++ t).bytes[i]? ∧
          targetFrom inputSize i offset out edits = some (out + k) := by
  induction h generalizing before out k with
  | nil offset t =>
    subst hbefore hsize
    rw [applyFrom, Text.dropBytes_byteSize_append] at hk ⊢
    refine Or.inr ⟨by simp [spansFrom], before.byteSize + k, ?_, ?_, ?_⟩
    · exact getElem?_keptRange (by rw [Text.byteSize_append]; omega)
    · rw [Text.bytes_append, List.getElem?_append_right (by rw [Text.length_bytes]; omega),
        Text.length_bytes, Nat.add_sub_cancel_left]
    · simp [targetFrom, hk]
  | @cons offset kept gone t e rest hstart hstop hrest ih =>
    subst hbefore
    have he := hsound e List.mem_cons_self
    have hbehind : (before ++ kept ++ gone).byteSize = e.stop := by
      simp only [Text.byteSize_append]
      omega
    have hassoc : before ++ (kept ++ gone ++ t) = before ++ kept ++ gone ++ t := by simp
    have htarget := fun byte =>
      @targetFrom_of_cut kept e rest _ _ byte out hstart (by omega) he
    have hkept : (keptRange before.byteSize (before.byteSize + kept.byteSize)).length =
        kept.byteSize := by
      rw [length_keptRange, Nat.add_sub_cancel_left]
    rw [applyFrom_of_cut hstart hstop] at hk ⊢
    rw [originsFrom_of_cut hstart (by omega) he, spansFrom_of_cut out hstart (by omega) he]
    simp only [Text.bytes_append, Text.byteSize_append] at hk ⊢
    rcases Nat.lt_or_ge k kept.byteSize with hfront | hfront
    · -- in front of the edit
      refine Or.inr ⟨?_, before.byteSize + k, ?_, ?_, ?_⟩
      · intro span hspan
        rcases List.mem_cons.mp hspan with rfl | hspan
        · dsimp only
          omega
        · have := le_of_mem_spansFrom hspan
          omega
      · rw [List.append_assoc, List.getElem?_append_left (by omega)]
        exact getElem?_keptRange (by omega)
      · rw [List.append_assoc, List.getElem?_append_left (by simpa using hfront),
          List.append_assoc kept.bytes, ← List.append_assoc before.bytes]
        exact (getElem?_middle (Text.length_bytes _) (by simpa using hfront)).symm
      · rw [htarget, if_pos (by omega), Nat.add_sub_cancel_left]
    · obtain ⟨j, rfl⟩ := Nat.exists_eq_add_of_le hfront
      rcases Nat.lt_or_ge j e.text.byteSize with hinside | hinside
      · -- in its replacement
        refine Or.inl ⟨e, _, _, j, List.mem_cons_self, by omega, by omega, ?_, ?_⟩
        · exact getElem?_middle (Text.length_bytes _) (by simpa using hinside)
        · exact getElem?_middle hkept (by rw [he.length_origins]; exact hinside)
      · -- behind it
        obtain ⟨l, rfl⟩ := Nat.exists_eq_add_of_le hinside
        have hplace : out + (kept.byteSize + (e.text.byteSize + l)) =
            out + kept.byteSize + e.text.byteSize + l := by omega
        rw [hplace, ← Nat.add_assoc kept.byteSize, getElem?_behind (by simp),
          getElem?_behind (by rw [hkept, he.length_origins])]
        rcases ih (fun a ha => hsound a (List.mem_cons_of_mem _ ha)) hbehind (hassoc ▸ hsize)
            (out + kept.byteSize + e.text.byteSize) (by omega : l < _) with
          ⟨a, start, stop, j, hspan, hput⟩ | ⟨houtside, i, horigin, hbyte, hreturn⟩
        · exact Or.inl ⟨a, start, stop, j, List.mem_cons_of_mem _ hspan, hput⟩
        · have hstopped := le_of_targetFrom hreturn
          refine Or.inr ⟨?_, i, horigin, ?_, ?_⟩
          · intro span hspan
            rcases List.mem_cons.mp hspan with rfl | hspan
            · dsimp only
              omega
            · exact houtside span hspan
          · rw [hbyte]
            simp only [Text.bytes_append, List.append_assoc]
          · rw [htarget, if_neg (by omega), hreturn]

/-! ## Layouts -/

namespace Layout

/-- A byte of the edited text is the byte `j` of the replacement of an edit, stands in the span of
that edit and has its origin `j`. -/
def IsPut (l : Layout) (output : Text) (o : Nat) : Prop :=
  ∃ e start stop j, (e, start, stop) ∈ l.spans ∧ o = start + j ∧ o < stop ∧
    output.bytes[o]? = e.text.bytes[j]? ∧ l.origins[o]? = e.origins[j]?

/-- A byte of the edited text stands in no span and comes from an equal byte of the old text. -/
def IsKept (l : Layout) (input output : Text) (o i : Nat) : Prop :=
  (∀ span ∈ l.spans, ¬ (span.2.1 ≤ o ∧ o < span.2.2)) ∧ l.origins[o]? = some (some i) ∧
    output.bytes[o]? = input.bytes[i]?

end Layout

theorem InOrder.length_originsFrom (h : InOrder input edits) :
    (originsFrom input.byteSize 0 edits).length = (applyAll input edits).byteSize :=
  h.cuts.length_originsFrom h.sound Text.byteSize_nil rfl

/-- The layout of the whole edited text is not cut short. -/
theorem InOrder.origins_eq_originsFrom (h : InOrder input edits) :
    (Layout.mk input.byteSize (applyAll input edits).byteSize edits).origins =
      originsFrom input.byteSize 0 edits := by
  rw [Layout.origins, ← h.length_originsFrom, List.take_length]

theorem InOrder.target?_eq_targetFrom (h : InOrder input edits) (i : Nat) :
    (Layout.mk input.byteSize (applyAll input edits).byteSize edits).target? i =
      targetFrom input.byteSize i 0 0 edits := by
  rw [Layout.target?]
  cases hn : targetFrom input.byteSize i 0 0 edits with
  | none => rfl
  | some n =>
    have hlt := h.cuts.lt_of_targetFrom h.sound Text.byteSize_nil rfl hn
    rw [Nat.zero_add] at hlt
    exact Option.filter_eq_some_iff.mpr ⟨rfl, decide_eq_true hlt⟩

/-- Each byte of the edited text is put there by an edit, or it is kept and the layout leads back to
it. -/
theorem InOrder.isPut_or_isKept (h : InOrder input edits) {o : Nat}
    (ho : o < (applyAll input edits).byteSize) :
    let l : Layout := ⟨input.byteSize, (applyAll input edits).byteSize, edits⟩
    l.IsPut (applyAll input edits) o ∨
      ∃ i, l.IsKept input (applyAll input edits) o i ∧ l.target? i = some o := by
  have hbyte := h.cuts.put_or_kept h.sound Text.byteSize_nil rfl 0 ho
  simp only [Nat.zero_add, List.nil_append, ← h.origins_eq_originsFrom,
    ← h.target?_eq_targetFrom] at hbyte
  rcases hbyte with hput | ⟨houtside, i, horigin, hbyte, htarget⟩
  · exact Or.inl hput
  · exact Or.inr ⟨i, ⟨houtside, horigin, hbyte⟩, htarget⟩

/-- Bytes that are kept keep their order. -/
theorem InOrder.target?_lt_iff (h : InOrder input edits) {i i' o o' : Nat}
    (ho : (Layout.mk input.byteSize (applyAll input edits).byteSize edits).target? i = some o)
    (ho' : (Layout.mk input.byteSize (applyAll input edits).byteSize edits).target? i' = some o') :
    i < i' ↔ o < o' := by
  rw [h.target?_eq_targetFrom] at ho ho'
  constructor
  · intro hlt
    exact targetFrom_lt_targetFrom ho ho' hlt
  · intro hlt
    rcases Nat.lt_trichotomy i i' with hii | rfl | hii
    · exact hii
    · have := Option.some.inj (ho.symm.trans ho')
      omega
    · have := targetFrom_lt_targetFrom ho' ho hii
      omega

/-- Between kept bytes the two maps of the layout are each other's inverses. -/
theorem InOrder.isKept_iff (h : InOrder input edits) (o i : Nat) :
    let l : Layout := ⟨input.byteSize, (applyAll input edits).byteSize, edits⟩
    l.IsKept input (applyAll input edits) o i ↔ l.target? i = some o := by
  intro l
  constructor
  · intro hkept
    obtain ⟨houtside, horigin, -⟩ := hkept
    have ho : o < (applyAll input edits).byteSize := by
      have hlt := (List.getElem?_eq_some_iff.mp horigin).1
      rwa [h.origins_eq_originsFrom, h.length_originsFrom] at hlt
    rcases h.isPut_or_isKept ho with ⟨e, start, stop, j, hspan, hplace, hstop, -⟩ | hkept
    · exact absurd ⟨by dsimp only; omega, hstop⟩ (houtside _ hspan)
    · obtain ⟨i', ⟨-, horigin', -⟩, htarget⟩ := hkept
      obtain rfl : i' = i := by simpa using horigin'.symm.trans horigin
      exact htarget
  · intro htarget
    have hfrom := htarget
    rw [h.target?_eq_targetFrom] at hfrom
    have ho := h.cuts.lt_of_targetFrom h.sound Text.byteSize_nil rfl hfrom
    rw [Nat.zero_add] at ho
    rcases h.isPut_or_isKept ho with ⟨e, start, stop, j, hspan, hplace, hstop, -⟩ | hkept
    · exact absurd ⟨by dsimp only; omega, hstop⟩ (outside_of_targetFrom hfrom _ hspan)
    · -- the byte comes from one that is neither in front nor behind
      obtain ⟨i', hkept, htarget'⟩ := hkept
      have hlt := h.target?_lt_iff htarget htarget'
      have hgt := h.target?_lt_iff htarget' htarget
      obtain rfl : i' = i := by omega
      exact hkept

/-- The layout and the edited text agree byte by byte. There are as many origins as bytes; each byte
is put there by an edit or kept; the two maps between kept bytes are each other's inverses; exactly
the bytes that edits cover are removed; and kept bytes keep their order. -/
theorem layout_applyAll (hvalid : validate input.byteSize edits = .ok ())
    (hboundary : ∀ e ∈ edits, input.IsBoundary e.start ∧ input.IsBoundary e.stop) :
    let output := applyAll input edits
    let l : Layout := ⟨input.byteSize, output.byteSize, edits⟩
    l.origins.length = output.byteSize ∧
      (∀ o < output.byteSize, l.IsPut output o ∨ ∃ i, l.IsKept input output o i) ∧
      (∀ o i, l.IsKept input output o i ↔ l.target? i = some o) ∧
      (∀ i < input.byteSize, l.target? i = none ↔ ∃ e ∈ edits, e.start ≤ i ∧ i < e.stop) ∧
      ∀ i i' o o', l.target? i = some o → l.target? i' = some o' → (i < i' ↔ o < o') := by
  intro output l
  have h := inOrder_of_validate hvalid hboundary
  refine ⟨?_, ?_, h.isKept_iff, ?_, ?_⟩
  · rw [h.origins_eq_originsFrom, h.length_originsFrom]
  · intro o ho
    rcases h.isPut_or_isKept ho with hput | ⟨i, hkept, -⟩
    · exact Or.inl hput
    · exact Or.inr ⟨i, hkept⟩
  · intro i hi
    rw [h.target?_eq_targetFrom]
    exact h.cuts.targetFrom_eq_none_iff h.sound 0 (Nat.zero_le i) hi
  · intro i i' o o' ho ho'
    exact h.target?_lt_iff ho ho'

/-- A text with characters of one, two and four bytes. -/
def mixedText : Text := "aé\r\n🙂b".toList

/-- A replacement with a byte that comes from nowhere, then an insertion and a removal at one
place. -/
def mixedEdits : List Edit :=
  [⟨1, 3, "xy".toList, [some 0, none]⟩, .synthesize 5 5 "é".toList 1, .delete 5 9]

theorem layout_applyAll_mixedText :
    validate mixedText.byteSize mixedEdits = .ok () ∧
    (∀ e ∈ mixedEdits, mixedText.IsBoundary e.start ∧ mixedText.IsBoundary e.stop) ∧
    applyAll mixedText mixedEdits = "axy\r\néb".toList ∧
    let l : Layout := ⟨10, 8, mixedEdits⟩
    l.origins.length = 8 ∧ (l.IsPut "axy\r\néb".toList 2 ∨
      ∃ i, l.IsKept mixedText "axy\r\néb".toList 2 i) ∧
    l.IsKept mixedText "axy\r\néb".toList 7 9 ∧ l.target? 6 = none := by
  have hvalid : validate mixedText.byteSize mixedEdits = .ok () := rfl
  have hboundary : ∀ e ∈ mixedEdits,
      mixedText.IsBoundary e.start ∧ mixedText.IsBoundary e.stop := by
    simp only [mixedEdits, List.forall_mem_cons, List.not_mem_nil, false_implies, implies_true,
      and_true]
    exact ⟨⟨⟨"a".toList, "é\r\n🙂b".toList, rfl, rfl⟩, ⟨"aé".toList, "\r\n🙂b".toList, rfl, rfl⟩⟩,
      ⟨⟨"aé\r\n".toList, "🙂b".toList, rfl, rfl⟩, ⟨"aé\r\n".toList, "🙂b".toList, rfl, rfl⟩⟩,
      ⟨"aé\r\n".toList, "🙂b".toList, rfl, rfl⟩, ⟨"aé\r\n🙂".toList, "b".toList, rfl, rfl⟩⟩
  have houtput : applyAll mixedText mixedEdits = "axy\r\néb".toList := by decide +kernel
  obtain ⟨hlength, hbytes, hkept, hremoved, -⟩ := layout_applyAll hvalid hboundary
  rw [houtput] at hlength hbytes hkept hremoved
  refine ⟨hvalid, hboundary, houtput, hlength, hbytes 2 (by decide), (hkept 7 9).mpr ?_,
    (hremoved 6 (by decide)).mpr ⟨.delete 5 9, by simp [mixedEdits], by decide, by decide⟩⟩
  decide +kernel

end Edit

end LeadingTrim

/-
# What an edited text is made of

Each character of an edited text is kept from the old text or put there by an edit. The trace of a
text says which (`trace`), with the offset in the old text of a character that is kept. It is made
of runs: stretches of the old text, and replacements. A run begins at the start of the text or at an
edge of the layout (`exists_run`), and the origins that the layout lists byte by byte are those of
the characters (`InOrder.getElem?_origins`).
-/

import LeadingTrim.Edit.Layout
import LeadingTrim.Proofs.Edit.Apart

namespace LeadingTrim.Edit

/-! ## Traces -/

/-- Where a character of an edited text comes from. -/
inductive Provenance
  /-- It is kept, and stands at the offset in the old text. -/
  | kept (offset : Nat)
  /-- The edit puts it there. -/
  | put (e : Edit)

/-- A character of an edited text with its provenance. -/
abbrev Traced := Char × Provenance

/-- The characters of a piece of the old text that is kept. -/
def keptFrom : Nat → Text → List Traced
  | _, [] => []
  | offset, c :: rest => (c, .kept offset) :: keptFrom (offset + c.utf8Size) rest

/-- The characters that an edit puts there. -/
def putBy (e : Edit) (t : Text) : List Traced := t.map fun c => (c, .put e)

/-- The trace of `applyFrom`. -/
def traceFrom (input : Text) : Nat → List Edit → List Traced
  | cursor, [] => keptFrom cursor (input.dropBytes cursor)
  | cursor, e :: rest =>
    keptFrom cursor (input.slice cursor e.start) ++ putBy e e.text
      ++ traceFrom input (max cursor e.stop) rest

/-- The characters of the edited text with their provenance. -/
def trace (input : Text) (edits : List Edit) : List Traced := traceFrom input 0 edits

/-- The text of a trace. -/
abbrev textOf (l : List Traced) : Text := l.map Prod.fst

@[simp] theorem textOf_keptFrom (offset : Nat) (t : Text) : textOf (keptFrom offset t) = t := by
  induction t generalizing offset with
  | nil => rfl
  | cons c t ih => simp [keptFrom, ih]

@[simp] theorem textOf_putBy (e : Edit) (t : Text) : textOf (putBy e t) = t := by
  simp [putBy, Function.comp_def]

theorem textOf_traceFrom (input : Text) (cursor : Nat) (edits : List Edit) :
    textOf (traceFrom input cursor edits) = applyFrom input cursor edits := by
  induction edits generalizing cursor with
  | nil => simp [traceFrom, applyFrom]
  | cons e edits ih =>
    rw [traceFrom, applyFrom, ← ih]
    simp

/-- A trace is one of the edited text. -/
theorem textOf_trace (input : Text) (edits : List Edit) :
    textOf (trace input edits) = applyAll input edits :=
  textOf_traceFrom input 0 edits

theorem applyAll_of_trace {input : Text} {edits : List Edit} {l m : List Traced}
    (h : trace input edits = l ++ m) : applyAll input edits = textOf l ++ textOf m := by
  rw [← textOf_trace, h, textOf, List.map_append]

theorem keptFrom_append (offset : Nat) (s t : Text) :
    keptFrom offset (s ++ t) = keptFrom offset s ++ keptFrom (offset + s.byteSize) t := by
  induction s generalizing offset with
  | nil => simp [keptFrom]
  | cons c s ih => simp [keptFrom, ih, Nat.add_assoc]

theorem snd_of_keptFrom_eq_cons {offset : Nat} {t : Text} {x : Traced} {l : List Traced}
    (h : keptFrom offset t = x :: l) : x.2 = .kept offset := by
  cases t with
  | nil => simp [keptFrom] at h
  | cons c t =>
    obtain ⟨rfl, -⟩ := List.cons.inj h
    rfl

theorem snd_of_mem_putBy {e : Edit} {t : Text} {x : Traced} (h : x ∈ putBy e t) : x.2 = .put e := by
  obtain ⟨c, -, rfl⟩ := List.mem_map.mp h
  rfl

/-- The trace along a cut. -/
theorem traceFrom_of_cut {before kept gone t : Text} {e : Edit} {rest : List Edit}
    (hstart : e.start = before.byteSize + kept.byteSize)
    (hstop : e.stop = e.start + gone.byteSize) :
    traceFrom (before ++ (kept ++ gone ++ t)) before.byteSize (e :: rest) =
      keptFrom before.byteSize kept ++ putBy e e.text
        ++ traceFrom (before ++ kept ++ gone ++ t) e.stop rest := by
  rw [traceFrom, slice_of_cut hstart, Nat.max_eq_right (by omega)]
  simp

/-! ## Runs -/

/-- A stretch of the old text, or of the replacement of an edit. -/
inductive IsRun (input : Text) (edits : List Edit) : List Traced → Prop
  | kept (before t after : Text) (h : input = before ++ t ++ after) :
    IsRun input edits (keptFrom before.byteSize t)
  | put {e : Edit} (he : e ∈ edits) (before t after : Text) (h : e.text = before ++ t ++ after) :
    IsRun input edits (putBy e t)

variable {input : Text} {edits : List Edit}

theorem keptFrom_eq_append {offset : Nat} {t : Text} {l m : List Traced}
    (h : keptFrom offset t = l ++ m) :
    t = textOf l ++ textOf m ∧ l = keptFrom offset (textOf l) ∧
      m = keptFrom (offset + (textOf l).byteSize) (textOf m) := by
  have ht : t = textOf l ++ textOf m := by
    rw [← textOf_keptFrom offset t, h, textOf, List.map_append]
  rw [ht, keptFrom_append] at h
  have hlength : (keptFrom offset (textOf l)).length = l.length := by
    have htext := congrArg List.length (textOf_keptFrom offset (textOf l))
    rwa [List.length_map, List.length_map] at htext
  obtain ⟨hl, hm⟩ := List.append_inj h hlength
  exact ⟨ht, hl.symm, hm.symm⟩

/-- Each half of a run is one. -/
theorem IsRun.of_append {l m : List Traced} (h : IsRun input edits (l ++ m)) :
    IsRun input edits l ∧ IsRun input edits m := by
  generalize hlm : l ++ m = run at h
  cases h with
  | kept before t after h =>
    obtain ⟨rfl, hl, hm⟩ := keptFrom_eq_append hlm.symm
    rw [hl, hm]
    refine ⟨.kept before _ (textOf m ++ after) (by simp [h]), ?_⟩
    rw [← Text.byteSize_append]
    exact .kept (before ++ textOf l) _ after (by simp [h])
  | put he before t after h =>
    obtain ⟨l', m', rfl, rfl, rfl⟩ := List.map_eq_append_iff.mp hlm.symm
    exact ⟨.put he before l' (m' ++ after) (by simp [h]),
      .put he (before ++ l') m' after (by simp [h])⟩

theorem IsRun.mono {edits' : List Edit} {l : List Traced} (h : IsRun input edits l)
    (hsubset : edits ⊆ edits') : IsRun input edits' l := by
  cases h with
  | kept before t after h => exact .kept before t after h
  | put he before t after h => exact .put (hsubset he) before t after h

/-- Where an element of two rows, one behind the other, stands. -/
theorem append_eq_append_cons {α : Type} {a b l m : List α} {x : α} (h : a ++ b = l ++ x :: m) :
    (∃ m', a = l ++ x :: m') ∨ ∃ l', l = a ++ l' ∧ b = l' ++ x :: m := by
  rcases List.append_eq_append_iff.mp h with ⟨l', rfl, hb⟩ | ⟨m', rfl, hm⟩
  · exact Or.inr ⟨l', rfl, hb⟩
  · cases m' with
    | nil => exact Or.inr ⟨[], by simp, by simpa using hm.symm⟩
    | cons y m' =>
      obtain ⟨rfl, -⟩ := List.cons.inj hm
      exact Or.inl ⟨m', rfl⟩

/-- The edges of replacements, from an offset of the edited text on. -/
def edgesFrom (cursor out : Nat) (edits : List Edit) : List Nat :=
  (spansFrom cursor out edits).flatMap fun span => [span.2.1, span.2.2]

theorem edgesFrom_cons {cursor : Nat} {kept : Text} {e : Edit} (out : Nat) (rest : List Edit)
    (hstart : e.start = cursor + kept.byteSize) (hcursor : cursor ≤ e.stop) :
    edgesFrom cursor out (e :: rest) =
      (out + kept.byteSize) :: (out + kept.byteSize + e.origins.length) ::
        edgesFrom e.stop (out + kept.byteSize + e.origins.length) rest := by
  have hkept : e.start - cursor = kept.byteSize := by omega
  simp [edgesFrom, spansFrom, hkept, Nat.max_eq_right hcursor]

/-- Each character of a trace is in a run, which begins at an edge or is kept from the start on. -/
theorem Cuts.exists_run {offset : Nat} {t : Text} {edits : List Edit} (h : Cuts offset t edits)
    (hlength : ∀ e ∈ edits, e.origins.length = e.text.byteSize) {before : Text}
    (hbefore : before.byteSize = offset) (out : Nat) {l m : List Traced} {x : Traced}
    (htrace : traceFrom (before ++ t) offset edits = l ++ x :: m) :
    ∃ l₀ run, l = l₀ ++ run ∧ IsRun (before ++ t) edits (run ++ [x]) ∧
      (l₀ = [] ∧ run ++ [x] = keptFrom offset (textOf (run ++ [x])) ∨
        out + (textOf l₀).byteSize ∈ edgesFrom offset out edits) := by
  induction h generalizing before out l with
  | nil offset t =>
    subst hbefore
    rw [traceFrom, Text.dropBytes_byteSize_append, List.append_cons] at htrace
    have hrun : IsRun (before ++ t) [] (keptFrom before.byteSize t) :=
      .kept before t [] (List.append_nil _).symm
    rw [htrace] at hrun
    exact ⟨[], l, rfl, hrun.of_append.1, Or.inl ⟨rfl, (keptFrom_eq_append htrace).2.1⟩⟩
  | @cons offset kept gone t e rest hstart hstop hrest ih =>
    subst hbefore
    have hassoc : before ++ (kept ++ gone ++ t) = before ++ kept ++ gone ++ t := by simp
    rw [traceFrom_of_cut hstart hstop] at htrace
    rw [edgesFrom_cons out rest hstart (by omega)]
    rcases append_eq_append_cons htrace with ⟨m₁, hfront⟩ | ⟨l₁, rfl, hrest⟩
    · rcases append_eq_append_cons hfront with ⟨m₂, hkept⟩ | ⟨l₂, rfl, hput⟩
      · -- in front of the edit
        have hrun : IsRun (before ++ (kept ++ gone ++ t)) (e :: rest)
            (keptFrom before.byteSize kept) := .kept before kept (gone ++ t) (by simp)
        rw [List.append_cons] at hkept
        rw [hkept] at hrun
        exact ⟨[], l, rfl, hrun.of_append.1, Or.inl ⟨rfl, (keptFrom_eq_append hkept).2.1⟩⟩
      · -- in its replacement
        have hrun : IsRun (before ++ (kept ++ gone ++ t)) (e :: rest) (putBy e e.text) :=
          .put List.mem_cons_self [] e.text [] (List.append_nil _).symm
        rw [hput, show l₂ ++ x :: m₁ = (l₂ ++ [x]) ++ m₁ by simp] at hrun
        exact ⟨_, l₂, rfl, hrun.of_append.1, Or.inr (by simp)⟩
    · -- behind it
      have hbehind : (before ++ kept ++ gone).byteSize = e.stop := by
        simp only [Text.byteSize_append]
        omega
      obtain ⟨l₀, run, rfl, hrun, hedge⟩ := ih (fun a ha => hlength a (List.mem_cons_of_mem _ ha))
        hbehind (out + kept.byteSize + e.origins.length) hrest
      rw [← hassoc] at hrun
      refine ⟨_, run, (List.append_assoc ..).symm, hrun.mono (List.subset_cons_self _ _), ?_⟩
      have hsize := hlength e List.mem_cons_self
      rcases hedge with ⟨rfl, -⟩ | hedge
      · right
        simp [hsize, Nat.add_assoc]
      · right
        refine List.mem_cons_of_mem _ (List.mem_cons_of_mem _ ?_)
        simpa [hsize, Nat.add_assoc] using hedge

/-- The edges stand between characters of the trace. -/
theorem Cuts.exists_of_mem_edgesFrom {offset : Nat} {t : Text} {edits : List Edit}
    (h : Cuts offset t edits) (hlength : ∀ e ∈ edits, e.origins.length = e.text.byteSize)
    {before : Text} (hbefore : before.byteSize = offset) {out n : Nat}
    (hn : n ∈ edgesFrom offset out edits) :
    ∃ l m, traceFrom (before ++ t) offset edits = l ++ m ∧ out + (textOf l).byteSize = n := by
  induction h generalizing before out with
  | nil => simp [edgesFrom, spansFrom] at hn
  | @cons offset kept gone t e rest hstart hstop hrest ih =>
    subst hbefore
    have hsize := hlength e List.mem_cons_self
    rw [traceFrom_of_cut hstart hstop]
    rw [edgesFrom_cons out rest hstart (by omega)] at hn
    rcases List.mem_cons.mp hn with rfl | hn
    · exact ⟨_, _, List.append_assoc .., by simp⟩
    rcases List.mem_cons.mp hn with rfl | hn
    · exact ⟨_, _, rfl, by simp [hsize, Nat.add_assoc]⟩
    have hbehind : (before ++ kept ++ gone).byteSize = e.stop := by
      simp only [Text.byteSize_append]
      omega
    obtain ⟨l, m, htrace, hl⟩ := ih (fun a ha => hlength a (List.mem_cons_of_mem _ ha)) hbehind hn
    rw [htrace]
    refine ⟨_, m, (List.append_assoc ..).symm, ?_⟩
    simp only [textOf, List.map_append, Text.byteSize_append] at hl ⊢
    rw [← hl]
    simp [hsize, Nat.add_assoc]

/-! ## Origins -/

/-- The origin of a character, if it has one. -/
def Provenance.origin? : Provenance → Option Nat
  | .kept offset => some offset
  | .put e => e.origins.head?.join

/-- The origins of the bytes of a character. -/
def byteOrigins (x : Traced) : List (Option Nat) :=
  match x.2 with
  | .kept offset => keptRange offset (offset + x.1.utf8Size)
  | .put e => List.replicate x.1.utf8Size e.origins.head?.join

theorem length_byteOrigins (x : Traced) : (byteOrigins x).length = x.1.utf8Size := by
  unfold byteOrigins
  split
  · simp [keptRange]
  · simp

theorem head?_byteOrigins (x : Traced) : (byteOrigins x).head? = some x.2.origin? := by
  obtain ⟨k, hk⟩ := Nat.exists_eq_succ_of_ne_zero (Nat.ne_of_gt x.1.utf8Size_pos)
  unfold byteOrigins Provenance.origin?
  rw [hk]
  split
  · simp [keptRange, List.range'_succ]
  · simp [List.replicate_succ]

theorem flatMap_byteOrigins_keptFrom (offset : Nat) (t : Text) :
    (keptFrom offset t).flatMap byteOrigins = keptRange offset (offset + t.byteSize) := by
  induction t generalizing offset with
  | nil => simp [keptFrom, keptRange]
  | cons c t ih =>
    rw [keptFrom, List.flatMap_cons, ih]
    simp only [byteOrigins, keptRange, Text.byteSize_cons, Nat.add_sub_cancel_left]
    rw [← List.map_append, List.range'_append_1]

theorem flatMap_byteOrigins_putBy (e : Edit) (t : Text) :
    (putBy e t).flatMap byteOrigins = List.replicate t.byteSize e.origins.head?.join := by
  induction t with
  | nil => rfl
  | cons c t ih =>
    rw [putBy, List.map_cons, List.flatMap_cons, ← putBy, ih, Text.byteSize_cons,
      ← List.replicate_append_replicate]
    rfl

/-- The layout along a cut. -/
theorem originsFrom_of_cut {cursor inputSize : Nat} {kept : Text} {e : Edit} {rest : List Edit}
    (hstart : e.start = cursor + kept.byteSize) (hcursor : cursor ≤ e.stop)
    (hsound : e.IsSound inputSize) :
    originsFrom inputSize cursor (e :: rest) =
      keptRange cursor (cursor + kept.byteSize) ++ e.origins ++
        originsFrom inputSize e.stop rest := by
  have horigins : e.origins.map (·.filter (· < inputSize)) = e.origins := by
    have hid : e.origins.map (·.filter (· < inputSize)) = e.origins.map id := by
      refine List.map_congr_left fun origin horigin => ?_
      cases origin with
      | none => rfl
      | some n => simp [Option.filter, hsound.origin_lt n horigin]
    rw [hid, List.map_id]
  rw [originsFrom, horigins, hstart, Nat.max_eq_right hcursor]

/-- The edit comes from one place as a whole, if it puts anything. -/
def IsUniform (e : Edit) : Prop := e.origins = List.replicate e.text.byteSize e.origins.head?.join

/-- The layout lists the origins of all characters, byte by byte. -/
theorem Cuts.originsFrom_eq {offset inputSize : Nat} {t : Text} {edits : List Edit}
    (h : Cuts offset t edits) (hsound : ∀ e ∈ edits, e.IsSound inputSize)
    (huniform : ∀ e ∈ edits, e.IsUniform) {before : Text} (hbefore : before.byteSize = offset)
    (hsize : inputSize = (before ++ t).byteSize) :
    originsFrom inputSize offset edits =
      (traceFrom (before ++ t) offset edits).flatMap byteOrigins := by
  induction h generalizing before with
  | nil offset t =>
    subst hbefore
    rw [originsFrom, traceFrom, Text.dropBytes_byteSize_append, flatMap_byteOrigins_keptFrom, hsize,
      Text.byteSize_append]
  | @cons offset kept gone t e rest hstart hstop hrest ih =>
    subst hbefore
    have hbehind : (before ++ kept ++ gone).byteSize = e.stop := by
      simp only [Text.byteSize_append]
      omega
    have hlater := ih (fun a ha => hsound a (List.mem_cons_of_mem _ ha))
      (fun a ha => huniform a (List.mem_cons_of_mem _ ha)) hbehind (by simpa using hsize)
    have hput : (putBy e e.text).flatMap byteOrigins = e.origins := by
      rw [flatMap_byteOrigins_putBy]
      exact (huniform e List.mem_cons_self).symm
    rw [originsFrom_of_cut hstart (by omega) (hsound e List.mem_cons_self),
      traceFrom_of_cut hstart hstop, List.flatMap_append, List.flatMap_append,
      flatMap_byteOrigins_keptFrom, hput, hlater]

theorem length_flatMap_byteOrigins (l : List Traced) :
    (l.flatMap byteOrigins).length = (textOf l).byteSize := by
  induction l with
  | nil => rfl
  | cons x l ih =>
    rw [List.flatMap_cons, List.length_append, ih, length_byteOrigins]
    rfl

/-- At the start of a character the layout has its origin. -/
theorem getElem?_flatMap_byteOrigins (l : List Traced) (x : Traced) (m : List Traced) :
    ((l ++ x :: m).flatMap byteOrigins)[(textOf l).byteSize]? = some x.2.origin? := by
  have hpos := x.1.utf8Size_pos
  have hzero : (byteOrigins x)[0]? = some x.2.origin? := by
    rw [← List.head?_eq_getElem?, head?_byteOrigins]
  rw [List.flatMap_append, ← length_flatMap_byteOrigins, List.getElem?_append_right (Nat.le_refl _),
    Nat.sub_self, List.flatMap_cons, List.getElem?_append_left (by rw [length_byteOrigins]; omega),
    hzero]

/-! ## Layouts of edits in order -/

/-- A character that is kept stands in the old text, and one that is put there in a replacement. -/
theorem InOrder.spec_of_trace {input : Text} {edits : List Edit} (h : InOrder input edits)
    {l m : List Traced} {x : Traced} (htrace : trace input edits = l ++ x :: m) :
    match x.2 with
    | .kept k => ∃ before after, input = before ++ x.1 :: after ∧ before.byteSize = k
    | .put e => e ∈ edits ∧ x.1 ∈ e.text := by
  obtain ⟨-, run, -, hrun, -⟩ := h.cuts.exists_run (fun e he => (h.sound e he).length_origins)
    Text.byteSize_nil 0 htrace
  have hx := hrun.of_append.2
  generalize hwhole : [x] = whole at hx
  cases hx with
  | put he before t after htext =>
    obtain ⟨c, rfl, rfl⟩ := List.map_eq_singleton_iff.mp hwhole.symm
    exact ⟨he, by simp [htext]⟩
  | kept before t after hinput =>
    rw [snd_of_keptFrom_eq_cons hwhole.symm]
    have ht := congrArg textOf hwhole
    rw [textOf_keptFrom] at ht
    exact ⟨before, after, by simpa [← ht] using hinput, rfl⟩

theorem InOrder.origins_eq {input : Text} {edits : List Edit} (h : InOrder input edits)
    (huniform : ∀ e ∈ edits, e.IsUniform) :
    (Layout.mk input.byteSize (applyAll input edits).byteSize edits).origins =
      (trace input edits).flatMap byteOrigins := by
  have horigins := h.cuts.originsFrom_eq (t := input) h.sound huniform (Text.byteSize_nil) rfl
  have hlength : (originsFrom input.byteSize 0 edits).length = (applyAll input edits).byteSize := by
    rw [horigins, length_flatMap_byteOrigins, ← textOf_trace]
    rfl
  rw [Layout.origins, ← hlength, List.take_length, horigins]
  rfl

/-- Where a character of the trace begins, the layout has its origin. -/
theorem InOrder.getElem?_origins {input : Text} {edits : List Edit} (h : InOrder input edits)
    (huniform : ∀ e ∈ edits, e.IsUniform) {l m : List Traced}
    (htrace : trace input edits = l ++ m) :
    (Layout.mk input.byteSize (applyAll input edits).byteSize edits).origins[(textOf l).byteSize]? =
      m.head?.map fun x => x.2.origin? := by
  rw [h.origins_eq huniform, htrace]
  cases m with
  | nil =>
    rw [List.append_nil, List.getElem?_eq_none (Nat.le_of_eq (length_flatMap_byteOrigins l))]
    rfl
  | cons x m =>
    rw [getElem?_flatMap_byteOrigins]
    rfl

end LeadingTrim.Edit

/-
# Where kept text lands

A character that is kept stands in the edited text where the layout says (`target?_eq_some_iff`).
The other offsets that matter for source maps are the edges of replacements and the lines that begin
inside of them. They are offsets of the edited text between characters, and if no edit begins or
ends between a carriage return and its line feed, none of them is there either (`InOrder.seamAt`,
`InOrder.seamAt_of_keptAt`).
-/

import LeadingTrim.Proofs.Edit.Trace
import LeadingTrim.Proofs.Text.Seam

namespace LeadingTrim.Edit

open Text (EndsClear IsSeam ReturnsPaired)

variable {input : Text} {edits : List Edit}

/-! ## Kept characters -/

/-- The character that is kept from an offset stands behind a number of bytes. -/
def KeptAt (l : List Traced) (byte n : Nat) : Prop :=
  ∃ front c behind, l = front ++ (c, .kept byte) :: behind ∧ (textOf front).byteSize = n

theorem keptAt_append {l m : List Traced} {byte n : Nat} :
    KeptAt (l ++ m) byte n ↔
      KeptAt l byte n ∨ ∃ k, KeptAt m byte k ∧ (textOf l).byteSize + k = n := by
  constructor
  · rintro ⟨front, c, behind, h, rfl⟩
    rcases append_eq_append_cons h with ⟨behind', hl⟩ | ⟨front', rfl, hm⟩
    · exact Or.inl ⟨front, c, behind', hl, rfl⟩
    · exact Or.inr ⟨_, ⟨front', c, behind, hm, rfl⟩, by simp⟩
  · rintro (⟨front, c, behind, rfl, rfl⟩ | ⟨_, ⟨front, c, behind, rfl, rfl⟩, rfl⟩)
    · exact ⟨front, c, behind ++ m, by simp, rfl⟩
    · exact ⟨l ++ front, c, behind, by simp, by simp⟩

theorem not_keptAt_putBy {e : Edit} {t : Text} {byte n : Nat} : ¬ KeptAt (putBy e t) byte n := by
  rintro ⟨front, c, behind, h, -⟩
  have hput := snd_of_mem_putBy (e := e) (t := t) (x := (c, .kept byte)) (by rw [h]; simp)
  exact absurd hput (by simp)

theorem keptAt_keptFrom {offset byte n : Nat} {t : Text} :
    KeptAt (keptFrom offset t) byte n ↔
      offset + n = byte ∧ ∃ (u : Text) (c : Char) (v : Text), t = u ++ c :: v ∧ u.byteSize = n := by
  constructor
  · rintro ⟨front, c, behind, h, rfl⟩
    obtain ⟨ht, -, hbehind⟩ := keptFrom_eq_append h
    exact ⟨(Provenance.kept.inj (snd_of_keptFrom_eq_cons hbehind.symm)).symm, _, c, _, ht, rfl⟩
  · rintro ⟨rfl, u, c, v, rfl, rfl⟩
    exact ⟨keptFrom offset u, c, _, keptFrom_append .., by rw [textOf_keptFrom]⟩

/-- The character at a boundary inside a piece of a text. -/
theorem exists_char_at (before t after : Text) {byte : Nat}
    (hbyte : (before ++ t ++ after).IsBoundary byte) (hle : before.byteSize ≤ byte)
    (hlt : byte < before.byteSize + t.byteSize) :
    ∃ (u : Text) (c : Char) (v : Text), t = u ++ c :: v ∧ u.byteSize = byte - before.byteSize := by
  obtain ⟨p, q, hpq, rfl⟩ := hbyte
  rw [List.append_assoc] at hpq
  obtain ⟨u, rfl⟩ := Text.exists_append_of_byteSize_le id hpq (by simpa using hle)
  rw [List.append_assoc, List.append_cancel_left_eq] at hpq
  rw [Text.byteSize_append] at hlt ⊢
  obtain ⟨v, rfl⟩ := Text.exists_append_of_byteSize_le id hpq.symm (by simp; omega)
  cases v with
  | nil =>
    rw [List.append_nil] at hlt
    omega
  | cons c v => exact ⟨u, c, v, rfl, by omega⟩

theorem le_of_targetFrom {inputSize byte cursor out n : Nat} {edits : List Edit}
    (h : targetFrom inputSize byte cursor out edits = some n) : cursor ≤ byte := by
  induction edits generalizing cursor out with
  | nil =>
    simp only [targetFrom, Bool.and_eq_true, decide_eq_true_eq, Option.ite_none_right_eq_some] at h
    exact h.1.1
  | cons e edits ih =>
    rw [targetFrom] at h
    split at h
    next hkept =>
      simp only [Bool.and_eq_true, decide_eq_true_eq] at hkept
      exact hkept.1
    · have := ih h
      omega

/-- The layout tells the places of the characters that are kept. -/
theorem Cuts.targetFrom_eq_some_iff {offset byte : Nat} {t : Text} {edits : List Edit}
    (h : Cuts offset t edits) (hlength : ∀ e ∈ edits, e.origins.length = e.text.byteSize)
    {before : Text} (hbefore : before.byteSize = offset) (hbyte : (before ++ t).IsBoundary byte)
    {inputSize : Nat} (hsize : inputSize = (before ++ t).byteSize) (out n : Nat) :
    targetFrom inputSize byte offset out edits = some n ↔
      ∃ k, KeptAt (traceFrom (before ++ t) offset edits) byte k ∧ out + k = n := by
  induction h generalizing before out n with
  | nil offset t =>
    subst hbefore hsize
    simp only [targetFrom, traceFrom, Text.dropBytes_byteSize_append, Text.byteSize_append,
      Bool.and_eq_true, decide_eq_true_eq, Option.ite_none_right_eq_some, Option.some.injEq,
      keptAt_keptFrom]
    constructor
    · rintro ⟨⟨hle, hlt⟩, rfl⟩
      have hchar := exists_char_at before t [] (by rwa [List.append_nil]) hle hlt
      exact ⟨byte - before.byteSize, ⟨by omega, hchar⟩, rfl⟩
    · rintro ⟨_, ⟨rfl, u, c, v, rfl, rfl⟩, rfl⟩
      have hpos := c.utf8Size_pos
      simp only [Text.byteSize_append, Text.byteSize_cons]
      omega
  | @cons offset kept gone t e rest hstart hstop hrest ih =>
    subst hbefore
    have hassoc : before ++ (kept ++ gone ++ t) = before ++ kept ++ gone ++ t := by simp
    have hbehind : (before ++ kept ++ gone).byteSize = e.stop := by
      simp only [Text.byteSize_append]
      omega
    have hlater := ih (fun a ha => hlength a (List.mem_cons_of_mem _ ha)) hbehind
      (hassoc ▸ hbyte) (hassoc ▸ hsize)
    have hput := hlength e List.mem_cons_self
    have hkept : e.start - before.byteSize = kept.byteSize := by omega
    rw [traceFrom_of_cut hstart hstop, targetFrom, hkept, Nat.max_eq_right (by omega)]
    simp only [keptAt_append, not_keptAt_putBy, keptAt_keptFrom, false_and, exists_false, or_false,
      textOf, List.map_append, textOf_keptFrom, textOf_putBy, Text.byteSize_append]
    split
    next hfront =>
      simp only [Bool.and_eq_true, decide_eq_true_eq] at hfront
      have hchar := exists_char_at before kept (gone ++ t) (by simpa using hbyte) hfront.1
        (by omega)
      rw [Option.some.injEq]
      constructor
      · rintro rfl
        exact ⟨_, Or.inl ⟨by omega, hchar⟩, rfl⟩
      · rintro ⟨k, ⟨hk, -⟩ | ⟨k', hk', rfl⟩, rfl⟩
        · omega
        · -- what is kept behind the edit does not stand in front of it
          have htarget := (hlater 0 (0 + k')).mpr ⟨k', hk', rfl⟩
          have hle := le_of_targetFrom htarget
          omega
    next hfront =>
      simp only [Bool.and_eq_true, decide_eq_true_eq] at hfront
      rw [hlater]
      constructor
      · rintro ⟨k, hk, rfl⟩
        exact ⟨_, Or.inr ⟨k, hk, rfl⟩, by omega⟩
      · rintro ⟨_, ⟨hk, u, c, v, rfl, hu⟩ | ⟨k, hk, rfl⟩, rfl⟩
        · have hpos := c.utf8Size_pos
          simp only [Text.byteSize_append, Text.byteSize_cons] at hstart
          omega
        · exact ⟨k, hk, by omega⟩

/-- The layout tells where a kept character stands. -/
theorem InOrder.target?_eq_some_iff (h : InOrder input edits) {byte n : Nat}
    (hbyte : input.IsBoundary byte) :
    (Layout.mk input.byteSize (applyAll input edits).byteSize edits).target? byte = some n ↔
      KeptAt (trace input edits) byte n := by
  have htarget := h.cuts.targetFrom_eq_some_iff (fun e he => (h.sound e he).length_origins)
    Text.byteSize_nil hbyte rfl 0 n
  simp only [List.nil_append, Nat.zero_add, exists_eq_right] at htarget
  rw [Layout.target?, Option.filter_eq_some_iff]
  simp only [htarget, trace, decide_eq_true_eq, and_iff_left_iff_imp]
  rintro ⟨front, c, behind, htrace, rfl⟩
  have hpos := c.utf8Size_pos
  have htext := textOf_trace input edits
  rw [trace, htrace] at htext
  rw [← htext]
  simp only [textOf, List.map_append, List.map_cons, Text.byteSize_append, Text.byteSize_cons]
  omega

/-! ## Edges and inner lines -/

/-- The offsets at which lines begin inside replacements, from an offset of the edited text on. -/
def innerFrom (cursor out : Nat) (edits : List Edit) : List Nat :=
  (spansFrom cursor out edits).flatMap fun span => Text.lineStartsFrom span.2.1 span.1.text

theorem innerFrom_cons {cursor : Nat} {kept : Text} {e : Edit} (out : Nat) (rest : List Edit)
    (hstart : e.start = cursor + kept.byteSize) (hcursor : cursor ≤ e.stop) :
    innerFrom cursor out (e :: rest) = Text.lineStartsFrom (out + kept.byteSize) e.text ++
      innerFrom e.stop (out + kept.byteSize + e.origins.length) rest := by
  have hkept : e.start - cursor = kept.byteSize := by omega
  simp [innerFrom, spansFrom, hkept, Nat.max_eq_right hcursor]

/-- A trace is cut behind a number of bytes, and not between a carriage return and its line feed. -/
def SeamAt (l : List Traced) (n : Nat) : Prop :=
  ∃ front behind, l = front ++ behind ∧ (textOf front).byteSize = n ∧ EndsClear (textOf front)

theorem SeamAt.append_left {l : List Traced} {n : Nat} (h : SeamAt l n) (m : List Traced) :
    SeamAt (l ++ m) n := by
  obtain ⟨front, behind, rfl, hn, hclear⟩ := h
  exact ⟨front, behind ++ m, List.append_assoc .., hn, hclear⟩

theorem SeamAt.append_right {l m : List Traced} {n : Nat} (h : SeamAt m n)
    (hl : EndsClear (textOf l)) : SeamAt (l ++ m) ((textOf l).byteSize + n) := by
  obtain ⟨front, behind, rfl, rfl, hclear⟩ := h
  refine ⟨l ++ front, behind, (List.append_assoc ..).symm, ?_, ?_⟩
  · rw [textOf, List.map_append, Text.byteSize_append]
  · rw [textOf, List.map_append]
    exact hl.append hclear

theorem seamAt_length {l : List Traced} (hl : EndsClear (textOf l)) :
    SeamAt l (textOf l).byteSize :=
  ⟨l, [], (List.append_nil _).symm, rfl, hl⟩

/-- Edges of replacements and lines that begin inside of them are at seams. -/
theorem Cuts.seamAt {offset : Nat} {t : Text} {edits : List Edit} (h : Cuts offset t edits)
    (hlength : ∀ e ∈ edits, e.origins.length = e.text.byteSize)
    (hput : ∀ e ∈ edits, EndsClear e.text) {before : Text} (hbefore : before.byteSize = offset)
    (hkept : ∀ e ∈ edits, ∀ u v, before ++ t = u ++ v → u.byteSize = e.start → EndsClear u)
    {out n : Nat} (hn : n ∈ edgesFrom offset out edits ∨ n ∈ innerFrom offset out edits) :
    ∃ k, SeamAt (traceFrom (before ++ t) offset edits) k ∧ out + k = n := by
  induction h generalizing before out with
  | nil => simp [edgesFrom, innerFrom, spansFrom] at hn
  | @cons offset kept gone t e rest hstart hstop hrest ih =>
    subst hbefore
    have hassoc : before ++ (kept ++ gone ++ t) = before ++ kept ++ (gone ++ t) := by simp
    have hbehind : (before ++ kept ++ gone).byteSize = e.stop := by
      simp only [Text.byteSize_append]
      omega
    have hfirst : EndsClear kept := by
      have hprefix := hkept e List.mem_cons_self _ _ hassoc (by simp [hstart])
      exact hprefix.of_append
    have hsize := hlength e List.mem_cons_self
    have htext := hput e List.mem_cons_self
    rw [traceFrom_of_cut hstart hstop]
    rw [edgesFrom_cons out rest hstart (by omega), innerFrom_cons out rest hstart (by omega)] at hn
    have hfrontText :
        textOf (keptFrom before.byteSize kept ++ putBy e e.text) = kept ++ e.text := by
      simp
    have hfront : EndsClear (textOf (keptFrom before.byteSize kept ++ putBy e e.text)) := by
      rw [hfrontText]
      exact hfirst.append htext
    have hfrontSize : (textOf (keptFrom before.byteSize kept ++ putBy e e.text)).byteSize =
        kept.byteSize + e.origins.length := by
      rw [hfrontText, Text.byteSize_append, hsize]
    have hlater : n ∈ edgesFrom e.stop (out + kept.byteSize + e.origins.length) rest ∨
        n ∈ innerFrom e.stop (out + kept.byteSize + e.origins.length) rest →
        ∃ k, SeamAt (keptFrom before.byteSize kept ++ putBy e e.text ++
          traceFrom (before ++ kept ++ gone ++ t) e.stop rest) k ∧ out + k = n := by
      intro hn
      obtain ⟨k, hk, rfl⟩ := ih (fun a ha => hlength a (List.mem_cons_of_mem _ ha))
        (fun a ha => hput a (List.mem_cons_of_mem _ ha)) hbehind
        (fun a ha u v huv => hkept a (List.mem_cons_of_mem _ ha) u v (by simpa using huv)) hn
      exact ⟨_, hk.append_right hfront, by omega⟩
    rcases hn with hn | hn
    · rcases List.mem_cons.mp hn with rfl | hn
      · have hseam := seamAt_length (l := keptFrom before.byteSize kept) (by simpa using hfirst)
        rw [textOf_keptFrom] at hseam
        exact ⟨_, (hseam.append_left _).append_left _, rfl⟩
      · rcases List.mem_cons.mp hn with rfl | hn
        · exact ⟨_, (seamAt_length hfront).append_left _, by omega⟩
        · exact hlater (Or.inl hn)
    · rcases List.mem_append.mp hn with hn | hn
      · obtain ⟨u, v, huv, rfl⟩ := Text.exists_of_mem_lineStartsFrom hn
        have hline : SeamAt (putBy e e.text) (u ++ ['\n']).byteSize := by
          refine ⟨putBy e (u ++ ['\n']), putBy e v, ?_, by rw [textOf_putBy], ?_⟩
          · rw [huv, putBy, putBy, putBy, ← List.map_append, List.append_cons]
          · rw [textOf_putBy]
            exact Text.endsClear_concat (by decide)
        have hseam := hline.append_right (l := keptFrom before.byteSize kept)
          (by simpa using hfirst)
        rw [textOf_keptFrom] at hseam
        exact ⟨_, hseam.append_left _, by omega⟩
      · exact hlater (Or.inr hn)

/-- Neither the text nor the replacements have a carriage return without a line feed, and no edit
begins or ends between the two. -/
structure KeepBreaks (input : Text) (edits : List Edit) : Prop where
  old : ReturnsPaired input
  text : ∀ e ∈ edits, ReturnsPaired e.text
  isSeam : ∀ e ∈ edits, IsSeam input e.start ∧ IsSeam input e.stop

theorem InOrder.keepBreaks (h : InOrder input edits) (hinput : '\r' ∉ input)
    (htexts : ∀ e ∈ edits, '\r' ∉ e.text) : KeepBreaks input edits where
  old := Text.returnsPaired_of_not_mem hinput
  text e he := Text.returnsPaired_of_not_mem (htexts e he)
  isSeam e he := ⟨(h.isBoundary e he).1.isSeam hinput, (h.isBoundary e he).2.isSeam hinput⟩

/-- Edges of replacements and lines that begin inside of them are at seams of the edited text. -/
theorem InOrder.seamAt (h : InOrder input edits) (hbreaks : KeepBreaks input edits)
    (inputSize outputSize : Nat) {n : Nat}
    (hn : n ∈ (Layout.mk inputSize outputSize edits).edges ∨
      n ∈ (Layout.mk inputSize outputSize edits).innerLineStarts) :
    SeamAt (trace input edits) n := by
  obtain ⟨k, hk, hkn⟩ := h.cuts.seamAt (fun e he => (h.sound e he).length_origins)
    (fun e he => (hbreaks.text e he).endsClear) Text.byteSize_nil (fun e he u v huv hu => by
      obtain ⟨u', v', huv', hu', hclear⟩ := (hbreaks.isSeam e he).1.exists_endsClear hbreaks.old
      rwa [Text.eq_of_byteSize_eq id (huv.symm.trans huv') (by simpa using hu.trans hu'.symm)])
    hn
  rw [Nat.zero_add] at hkn
  exact hkn ▸ hk

/-- So are characters that are kept from seams. -/
theorem InOrder.seamAt_of_keptAt (h : InOrder input edits) (hbreaks : KeepBreaks input edits)
    {u v : Text} {n : Nat} (hinput : input = u ++ v) (hclear : EndsClear u)
    (hkept : KeptAt (trace input edits) u.byteSize n) : SeamAt (trace input edits) n := by
  obtain ⟨front, c, behind, htrace, rfl⟩ := hkept
  refine ⟨front, _, htrace, rfl, ?_⟩
  obtain ⟨l₀, run, rfl, hrun, hedge⟩ := h.cuts.exists_run
    (fun e he => (h.sound e he).length_origins) Text.byteSize_nil 0 htrace
  have hfirst : EndsClear (textOf l₀) := by
    rcases hedge with ⟨rfl, -⟩ | hedge
    · exact Text.endsClear_nil
    · rw [Nat.zero_add] at hedge
      obtain ⟨l₁, m₁, htrace₁, hsize, hclear₁⟩ := h.seamAt hbreaks 0 0 (Or.inl hedge)
      rw [List.append_assoc] at htrace
      rwa [Text.eq_of_byteSize_eq Prod.fst (htrace₁.symm.trans htrace) hsize] at hclear₁
  have hsecond : EndsClear (textOf run) := by
    generalize hlast : run ++ [(c, Provenance.kept u.byteSize)] = whole at hrun
    cases hrun with
    | put he before t after htext =>
      have hput := snd_of_mem_putBy (hlast ▸ List.mem_append_right _ List.mem_cons_self)
      exact absurd hput (by simp)
    | kept before t after hcut =>
      -- the text of the run stands behind the same text as in the old text
      obtain ⟨rfl, -, hx⟩ := keptFrom_eq_append hlast.symm
      have hu := Provenance.kept.inj (snd_of_keptFrom_eq_cons hx.symm)
      rw [List.nil_append, hinput] at hcut
      have heq : u = before ++ textOf run := Text.eq_of_byteSize_eq id
        (by rw [hcut, List.append_assoc, List.append_assoc, ← List.append_assoc before])
        (by simpa using hu)
      rw [heq] at hclear
      exact hclear.of_append
  rw [textOf, List.map_append]
  exact hfirst.append hsecond

end LeadingTrim.Edit

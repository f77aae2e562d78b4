/-
# Where a text is split

A splitter cuts a text where a separator stands outside of everything. Either nothing of a text
does, and it is its only piece, or there is a first such place (`exists_first_separator`). A text is
walked through character by character, so the facts here are about the text behind a first part:
the state that the splitter is in there is that of the fold along the first part. A text that is not
split can be put in front of another one (`pieces_append`), and then the splitter stands outside
again if the text is closed (`IsWhole`).
-/

import LeadingTrim.Text.TopLevel

namespace LeadingTrim.Text.Splitter

variable {p : Splitter} {d : Depth} {s t : Text}

/-! ## One piece -/

/-- The first character does not split a text, and neither does anything behind it. -/
theorem pieces_cons_eq_singleton_iff {c : Char} :
    p.pieces d (c :: t) = [(c :: t, [])] ↔
      p.ends d c = false ∧ p.pieces (p.next d c) t = [(t, [])] := by
  obtain ⟨first, rest, later, hpieces, -⟩ := p.head_pieces (p.next d c) t
  rw [pieces, hpieces]
  cases p.ends d c <;> simp

/-- A text is its only piece if nothing of it is a separator outside of everything. -/
theorem pieces_eq_singleton_iff :
    p.pieces d t = [(t, [])] ↔
      ∀ before c after, t = before ++ c :: after → p.ends (before.foldl p.next d) c = false := by
  induction t generalizing d with
  | nil => simp [pieces]
  | cons c t ih =>
    rw [pieces_cons_eq_singleton_iff, ih]
    constructor
    · rintro ⟨hc, hrest⟩ before b after hsplit
      cases before with
      | nil =>
        obtain ⟨rfl, -⟩ := List.cons.inj hsplit
        exact hc
      | cons a before =>
        obtain ⟨rfl, hbehind⟩ := List.cons.inj hsplit
        exact hrest before b after hbehind
    · intro h
      refine ⟨h [] c t rfl, fun before b after hsplit => h (c :: before) b after ?_⟩
      rw [hsplit]
      rfl

/-- Nothing splits a text, or there is a first place at which it is split. -/
theorem exists_first_separator (p : Splitter) (d : Depth) (t : Text) :
    p.pieces d t = [(t, [])] ∨
      ∃ s c rest, t = s ++ c :: rest ∧ p.pieces d s = [(s, [])] ∧
        p.ends (s.foldl p.next d) c = true := by
  induction t generalizing d with
  | nil => exact Or.inl rfl
  | cons c t ih =>
    cases hc : p.ends d c with
    | true => exact Or.inr ⟨[], c, t, rfl, rfl, hc⟩
    | false =>
      rcases ih (p.next d c) with hwhole | ⟨s, b, rest, rfl, hs, hb⟩
      · exact Or.inl (pieces_cons_eq_singleton_iff.mpr ⟨hc, hwhole⟩)
      · exact Or.inr ⟨c :: s, b, rest, rfl, pieces_cons_eq_singleton_iff.mpr ⟨hc, hs⟩, hb⟩

/-- A text that is not split is a part of the first piece of a longer one. -/
theorem pieces_append {piece behind : Text} {more : List (Text × Text)}
    (hs : p.pieces d s = [(s, [])])
    (ht : p.pieces (s.foldl p.next d) t = (piece, behind) :: more) :
    p.pieces d (s ++ t) = (s ++ piece, behind) :: more := by
  induction s generalizing d with
  | nil => exact ht
  | cons c s ih =>
    obtain ⟨hc, hs⟩ := pieces_cons_eq_singleton_iff.mp hs
    rw [List.cons_append, pieces, hc, if_neg Bool.false_ne_true, ih hs ht]
    rfl

/-- In front of a separator a text that is not split is the first piece. -/
theorem pieces_append_separator {c : Char} (hs : p.pieces d s = [(s, [])])
    (hc : p.ends (s.foldl p.next d) c = true) (rest : Text) :
    p.pieces d (s ++ c :: rest) = (s, c :: rest) :: p.pieces (s.foldl p.next d) rest := by
  have hrest : p.pieces (s.foldl p.next d) (c :: rest) =
      ([], c :: rest) :: p.pieces (s.foldl p.next d) rest := by
    rw [pieces, if_pos hc]
  rw [pieces_append hs hrest, List.append_nil]

/-! ## Texts that are not split -/

/-- A text that is not split, and behind it a splitter stands outside of everything. -/
structure IsWhole (p : Splitter) (t : Text) : Prop where
  split : p.split t = [(t, [])]
  closed : t.foldl p.next Depth.outside = Depth.outside

theorem IsWhole.append (hs : p.IsWhole s) (ht : p.IsWhole t) : p.IsWhole (s ++ t) where
  split := by
    refine pieces_append hs.split ?_
    rw [hs.closed]
    exact ht.split
  closed := by rw [List.foldl_append, hs.closed, ht.closed]

theorem isWhole_of_forall (h : ∀ c ∈ t, p.ends Depth.outside c = false ∧
    p.next Depth.outside c = Depth.outside) : p.IsWhole t := by
  induction t with
  | nil => exact ⟨rfl, rfl⟩
  | cons c t ih =>
    obtain ⟨⟨hends, hnext⟩, hrest⟩ := List.forall_mem_cons.mp h
    obtain ⟨hsplit, hclosed⟩ := ih hrest
    refine ⟨pieces_cons_eq_singleton_iff.mpr ⟨hends, ?_⟩, ?_⟩
    · rwa [hnext]
    · rwa [List.foldl_cons, hnext]

/-- Nothing between quotes splits a text. -/
theorem isWhole_quoted {q : Char} (hq : isQuote q = true) {content : Text} (hquote : q ∉ content)
    (hescape : '\\' ∉ content) : p.IsWhole (q :: (content ++ [q])) := by
  have hinside : ∀ c, p.ends ⟨0, some q, false⟩ c = false := fun c => by
    simp [ends, Depth.outside]
  have hslash : q ≠ '\\' := by
    rintro rfl
    exact absurd hq (by decide)
  have hopen : p.next Depth.outside q = ⟨0, some q, false⟩ := by
    simp [next, Depth.outside, hslash, hq]
  have hcontent : p.pieces ⟨0, some q, false⟩ (content ++ [q]) = [(content ++ [q], [])] ∧
      (content ++ [q]).foldl p.next ⟨0, some q, false⟩ = Depth.outside := by
    induction content with
    | nil =>
      refine ⟨pieces_cons_eq_singleton_iff.mpr ⟨hinside q, rfl⟩, ?_⟩
      simp [next, Depth.outside, hslash]
    | cons c content ih =>
      simp only [List.mem_cons, not_or] at hquote hescape
      have hnext : p.next ⟨0, some q, false⟩ c = ⟨0, some q, false⟩ := by
        simp [next, Ne.symm hescape.1, Ne.symm hquote.1]
      obtain ⟨hpieces, hclosed⟩ := ih hquote.2 hescape.2
      refine ⟨pieces_cons_eq_singleton_iff.mpr ⟨hinside c, ?_⟩, ?_⟩
      · rwa [hnext]
      · rwa [List.cons_append, List.foldl_cons, hnext]
  refine ⟨pieces_cons_eq_singleton_iff.mpr ⟨?_, hopen ▸ hcontent.1⟩, ?_⟩
  · simp [ends, hq]
  · rw [List.foldl_cons, hopen, hcontent.2]

end LeadingTrim.Text.Splitter

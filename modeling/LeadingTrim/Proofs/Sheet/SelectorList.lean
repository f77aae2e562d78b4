/-
# Selector lists with pseudo-elements

A selector list is read as a list again when a pseudo-element is put behind each of its selectors
(`exists_reads_withPseudo`), whatever brackets, strings and comments are in it. One selector ends
outside of brackets. What stands in front of its last closing bracket is read again because that
bracket is, and what stands behind it because it is outside of brackets
(`readsPseudoElement_of_reads`). The list follows by induction on its lexemes, along which the
selectors are put together.
-/

import LeadingTrim.Proofs.Sheet.Flat

namespace LeadingTrim.Sheet

open Text (isSheetSpace Reads)

/-! ## One selector -/

/-- Where no bracket is closed, none has been opened if none is open in the end. -/
theorem bracketsAfter_eq_zero {l : List Lexeme} {brackets : Nat}
    (h : bracketsAfter brackets l = 0) (hclosing : ∀ p ∈ l, p.1 ≠ .closing) :
    brackets = 0 ∧ ∀ p ∈ l, p.1 ≠ .opening := by
  induction l generalizing brackets with
  | nil => exact ⟨h, by simp⟩
  | cons p l ih =>
    rw [bracketsAfter] at h
    obtain ⟨hzero, hl⟩ := ih h fun q hq => hclosing q (List.mem_cons_of_mem _ hq)
    obtain ⟨k, x⟩ := p
    have hk : k ≠ .closing := hclosing (k, x) List.mem_cons_self
    have hopening : k ≠ .opening := by
      rintro rfl
      simp [bracketsBehind] at hzero
    refine ⟨?_, fun q hq => ?_⟩
    · cases k <;> simp_all [bracketsBehind]
    · rcases List.mem_cons.mp hq with rfl | hq
      · exact hopening
      · exact hl q hq

/-- Without a bracket among the lexemes, none is open behind them that was not open before. -/
theorem bracketsAfter_of_noBracket {l : List Lexeme} (brackets : Nat)
    (hl : ∀ p ∈ l, p.1 ≠ .opening ∧ p.1 ≠ .closing) : bracketsAfter brackets l = brackets := by
  induction l with
  | nil => rfl
  | cons p l ih =>
    obtain ⟨k, x⟩ := p
    have hk : k ≠ .opening ∧ k ≠ .closing := hl (k, x) List.mem_cons_self
    have hrest := ih fun q hq => hl q (List.mem_cons_of_mem _ hq)
    cases k <;> simp_all [bracketsAfter, bracketsBehind]

/-- Lexemes without brackets are such as stand outside of brackets. -/
theorem isFlat_of_noBracket {l : List Lexeme} (h : hasBareEquals 0 l = false)
    (hl : ∀ p ∈ l, p.1 ≠ .opening ∧ p.1 ≠ .closing) (hstray : ∀ p ∈ l, p.1 ≠ .stray) :
    ∀ p ∈ l, p.IsFlat := by
  refine fun p hp => ⟨⟨(hl p hp).1, (hl p hp).2, hstray p hp⟩, ?_⟩
  rintro rfl
  obtain ⟨front, behind, rfl⟩ := List.append_of_mem hp
  obtain ⟨-, hbehind⟩ := hasBareEquals_append h
  rw [bracketsAfter_of_noBracket 0 fun q hq => hl q (List.mem_append_left _ hq)] at hbehind
  simp [hasBareEquals] at hbehind

/-- There is no closing bracket among the lexemes, or there is a last one. -/
theorem exists_last_closing (l : List Lexeme) :
    (∀ p ∈ l, p.1 ≠ .closing) ∨
      ∃ front x behind, l = front ++ (Kind.closing, x) :: behind ∧
        ∀ p ∈ behind, p.1 ≠ .closing := by
  induction l with
  | nil => exact Or.inl (by simp)
  | cons p l ih =>
    rcases ih with hnone | ⟨front, x, behind, rfl, hbehind⟩
    · by_cases hp : p.1 = .closing
      · obtain ⟨k, x⟩ := p
        obtain rfl : k = .closing := hp
        exact Or.inr ⟨[], x, l, rfl, hnone⟩
      · refine Or.inl fun q hq => ?_
        rcases List.mem_cons.mp hq with rfl | hq
        · exact hp
        · exact hnone q hq
    · exact Or.inr ⟨p :: front, x, behind, rfl, hbehind⟩

theorem lexeme_closing {n : Nesting} {c : Char} (hc : c = ')' ∨ c = ']') (rest rest' : Text) :
    lexeme n c rest = lexeme n c rest' := by
  rcases hc with rfl | rfl <;> simp [lexeme, isSheetSpace]

variable {l : List Lexeme} {n : Nesting} {u r name : Text}

theorem isSelectorGround_start : IsSelectorGround (Nesting.start .selector).ground :=
  ⟨Or.inl rfl, rfl⟩

/-- Behind a closing bracket that leaves no bracket open, the state is outside of brackets, and in
front of it one bracket is open. -/
theorem isFlat_of_leave? {front : List Lexeme} {n m : Nesting} {t : Text}
    (hfront : Reads lexeme (.start .selector) front n t) (hequals : hasBareEquals 0 front = false)
    (hleave : n.leave? = some m) (houter : m.outer = []) :
    m.IsFlat ∧ bracketsAfter 0 front = 1 := by
  have hground₁ := isSelectorGround_of_reads hfront hequals isSelectorGround_start
  obtain ⟨-, hground, hattached, hbrackets⟩ := Nesting.ground_of_leave? hground₁.ne_either hleave
  rw [← hground, Nesting.ground_of_nil houter] at hground₁
  rw [houter, length_outer_of_reads hfront] at hbrackets
  exact ⟨⟨houter, hground₁, Or.inl hattached⟩, hbrackets.symm⟩

/-- A selector that ends outside of brackets is read again with a pseudo-element behind it. -/
theorem readsPseudoElement_of_reads (h : Reads lexeme (.start .selector) l n u)
    (houter : n.outer = []) (hstray : ∀ p ∈ l, p.1 ≠ .stray) (hequals : hasBareEquals 0 l = false)
    (hlast : ∀ p ∈ l.getLast?, p.isFiller = false) (hclosed : ClosesComments (Text.texts l) u)
    (hname : IsPseudoName name) (hr : ∀ c ∈ r.head?, isNameChar c = false) :
    ReadsPseudoElement name (.start .selector) l r := by
  have hlength := length_outer_of_reads h
  rw [houter] at hlength
  rcases exists_last_closing l with hclosing | ⟨front, x, behind, rfl, hclosing⟩
  · obtain ⟨-, hopening⟩ := bracketsAfter_eq_zero hlength.symm hclosing
    have hflat := isFlat_of_noBracket hequals (fun p hp => ⟨hopening p hp, hclosing p hp⟩) hstray
    exact isFlat_start.readsPseudoElement isFlat_start hflat hlast hclosed h hname hr
  · obtain ⟨n₁, hfront, hback⟩ := h.of_append
    cases hback with
    | @cons _ m _ _ c y _ _ hfirst hbehind =>
    obtain ⟨hleave, hc, hy⟩ := leadsTo_and_shows_of_lexeme hfirst
    obtain rfl : y = [] := List.length_eq_zero_iff.mp hy
    have hd : endsPlain c = true := by rcases hc with rfl | rfl <;> decide
    -- behind the bracket the selector is outside of all brackets
    have hcount := length_outer_of_reads hbehind
    rw [houter] at hcount
    obtain ⟨hzero, hopening⟩ := bracketsAfter_eq_zero hcount.symm hclosing
    obtain ⟨hequals₁, hequals₂⟩ := hasBareEquals_append hequals
    obtain ⟨hflat, hone⟩ :=
      isFlat_of_leave? hfront hequals₁ hleave (List.length_eq_zero_iff.mp hzero)
    rw [hone] at hequals₂
    have hlexemes := isFlat_of_noBracket (l := behind) hequals₂
      (fun p hp => ⟨hopening p hp, hclosing p hp⟩) fun p hp => hstray p (by simp [hp])
    -- so what stands behind it is read again, and then what stands in front of it
    have hlast' : ∀ p ∈ behind.getLast?, Lexeme.isFiller p = false := by
      intro p hp
      refine hlast p ?_
      rw [List.append_cons, List.getLast?_append, Option.mem_def.mp hp]
      rfl
    rw [Text.texts_append] at hclosed
    have hclosed' : ClosesComments (Text.texts behind) u :=
      ClosesComments.of_append (u := [c]) hclosed.of_append
    obtain ⟨front₂, back, p, more, m', rfl, hreads, hflat', htexts, hwords⟩ :=
      hflat.readsPseudoElement hflat hlexemes hlast' hclosed' hbehind hname hr
    have hkeeps : StringsKeep front (c :: (Text.texts (front₂ ++ back) ++ u))
        (c :: (Text.texts (front₂ ++ p :: more) ++ r)) :=
      (hclosed.of_append_left.keepsOpen _).stringsKeep
    have hfront' := reads_congr hd (fun q hq => hstray q (List.mem_append_left _ hq)) hkeeps hfront
    have hall := hfront'.append (m := (.closing, [c]) :: (front₂ ++ p :: more))
      (.cons ((lexeme_closing hc _ _).trans hfirst) hreads)
    refine ⟨front ++ (.closing, [c]) :: front₂, back, p, more, m', by simp, by simpa using hall,
      hflat', ?_, hwords⟩
    have hsplit : front ++ (Kind.closing, [c]) :: front₂ ++ p :: more =
        front ++ (.closing, [c]) :: (front₂ ++ p :: more) := by simp
    rw [hsplit, Text.texts_append, Text.texts_cons, htexts]
    simp [Text.texts_append]

/-! ## White space and comments between selectors -/

/-- The text of a piece with a pseudo-element behind it, if it is a selector. -/
def SelectorPiece.withPseudo (pseudo : Text) : SelectorPiece → Text
  | .branch text => text ++ pseudo
  | .gap text => text

/-- White space or a comment between selectors, which may count as a selector. -/
def Lexeme.withPseudo (pseudo : Text) (p : Lexeme) : Lexeme :=
  (p.1, (SelectorPiece.ofFiller p).withPseudo pseudo)

theorem texts_map_withPseudo (pseudo : Text) (l : List Lexeme) :
    Text.texts (l.map (Lexeme.withPseudo pseudo)) =
      (l.map SelectorPiece.ofFiller).flatMap (SelectorPiece.withPseudo pseudo) := by
  simp [Text.texts, Lexeme.withPseudo, Function.comp_def, List.flatMap_def]

theorem not_mem_pseudoElement (hname : IsPseudoName name) : '\n' ∉ pseudoElement name := by
  intro h
  simp only [pseudoElement, List.mem_cons] at h
  rcases h with h | h | h
  · cases h
  · cases h
  · exact absurd (hname.isAlpha _ h) (by decide)

/-- A comment to the end of the line is one with the pseudo-element, too. -/
theorem exists_withPseudo {k : Kind} {c : Char} {x : Text} (hname : IsPseudoName name)
    (h : IsFiller k c x) :
    ∃ y, Lexeme.withPseudo (pseudoElement name) (k, c :: x) = (k, c :: y) ∧ IsFiller k c y := by
  cases h with
  | space hc hx => exact ⟨x, rfl, .space hc hx⟩
  | comment htail => exact ⟨_, rfl, .comment htail⟩
  | lineComment hhead hx =>
    refine ⟨x ++ pseudoElement name, rfl, .lineComment ?_ ?_⟩
    · rw [List.head?_append, hhead]
      rfl
    · intro a ha
      rcases List.mem_append.mp ha with ha | ha
      · exact hx a ha
      · rw [bne_iff_ne]
        rintro rfl
        exact not_mem_pseudoElement hname ha

/-- White space and comments at the start of a list leave it at its start. -/
theorem eq_start_of_leadsTo {n' : Nesting} {k : Kind} {t : Text}
    (h : (Nesting.start .selector).LeadsTo n' t k) (hk : k ∈ [.space, .comment, .lineComment]) :
    n' = .start .selector := by
  cases k with
  | space =>
    obtain ⟨r, rfl⟩ := h
    unfold Nesting.behindSpace
    dsimp only
    split
    · rfl
    · split <;> rfl
  | comment | lineComment => exact h
  | _ => simp at hk

theorem eq_start_of_reads {n : Nesting} {p : Lexeme} {u : Text}
    (h : Reads lexeme (.start .selector) [p] n u) (hp : p.1 ∈ [.space, .comment, .lineComment]) :
    n = .start .selector := by
  cases h with
  | cons hfirst hrest =>
  cases hrest
  exact eq_start_of_leadsTo (leadsTo_of_lexeme hfirst) hp

theorem Lexeme.kind_mem_of_isFiller {p : Lexeme} (h : p.isFiller = true) :
    p.1 ∈ [Kind.space, .comment, .lineComment] := by
  obtain ⟨k, x⟩ := p
  cases k <;> first | (simp; done) | cases h

/-- White space and comments between selectors are read again. -/
theorem exists_reads_fillers {m n' : Nesting} {r : Text} (hname : IsPseudoName name)
    (hm : m.IsFlat) (hl : ∀ p ∈ l, p.isFiller = true)
    (h : Reads lexeme n l n' u) (hhead : r.head? = u.head?) :
    (∃ m', Reads lexeme m (l.map (Lexeme.withPseudo (pseudoElement name))) m' r ∧ m'.IsFlat) ∧
      (Text.texts (l.map (Lexeme.withPseudo (pseudoElement name))) ++ r).head? =
        (Text.texts l ++ u).head? := by
  induction l generalizing n m with
  | nil => exact ⟨⟨m, .nil _ _, hm⟩, hhead⟩
  | cons p l ih =>
    cases h with
    | @cons _ n₁ _ k c x _ _ hfirst hrest =>
    obtain ⟨hfiller, -⟩ := filler_of_lexeme hfirst (hl _ List.mem_cons_self)
    obtain ⟨hx, hends⟩ := filler_eq_some_iff.mp hfiller
    obtain ⟨y, hy, hyfiller⟩ := exists_withPseudo hname hx
    have hl' : ∀ q ∈ l, q.isFiller = true := fun q hq => hl q (List.mem_cons_of_mem _ hq)
    obtain ⟨-, hhead'⟩ := ih hm hl' hrest
    obtain ⟨m₁, hm₁, hflat⟩ := hm.lexeme_filler
      (filler_eq_some_iff.mpr ⟨hyfiller, hends.congr hhead'.symm⟩)
    obtain ⟨⟨m', hm', hflat'⟩, -⟩ := ih hflat hl' hrest
    rw [List.map_cons, hy]
    exact ⟨⟨m', .cons hm₁ hm', hflat'⟩, rfl⟩

/-! ## Lists -/

/-- A place in the walk through a list: the selector that is being read, the fillers behind it, and
the rest of the list, which is followed by a text. -/
structure ListWalk (u : Text) (current held l : List Lexeme) (n n' : Nesting) : Prop where
  reads_current : Reads lexeme (.start .selector) (current ++ held) n (Text.texts l ++ u)
  reads_rest : Reads lexeme n l n' u
  isFiller_held : ∀ p ∈ held, p.isFiller = true
  current_last : ∀ p ∈ current.getLast?, p.isFiller = false
  held_of_current : current = [] → held = []
  held_of_rest : l = [] → held = []
  rest_last : ∀ p ∈ l.getLast?, p.isFiller = false
  ne_stray : ∀ p ∈ current ++ held ++ l, p.1 ≠ .stray
  equals : hasBareEquals 0 (current ++ held ++ l) = false
  sound : isSoundRow n.outer.length (!current.isEmpty) l = true
  closes : ClosesComments (Text.texts (current ++ held ++ l)) u

namespace ListWalk

variable {current held : List Lexeme} {n' : Nesting} {p : Lexeme}

theorem ne_nil_of_isFiller (h : ListWalk u current held (p :: l) n n') (hp : p.isFiller = true) :
    l ≠ [] := by
  rintro rfl
  rw [h.rest_last p rfl] at hp
  cases hp

theorem rest_last_tail (h : ListWalk u current held (p :: l) n n') :
    ∀ q ∈ l.getLast?, q.isFiller = false := by
  intro q hq
  cases l with
  | nil => cases hq
  | cons p' l => exact h.rest_last q (by rwa [List.getLast?_cons_cons])

/-- One more lexeme is read. -/
theorem exists_reads_concat (h : ListWalk u current held (p :: l) n n') :
    ∃ n₁, Reads lexeme (.start .selector) (current ++ held ++ [p]) n₁ (Text.texts l ++ u) ∧
      Reads lexeme n₁ l n' u ∧ n.LeadsTo n₁ (p.2 ++ (Text.texts l ++ u)) p.1 := by
  have hcurrent := h.reads_current
  cases h.reads_rest with
  | @cons _ n₁ _ k c x _ _ hfirst hrest =>
  rw [Text.texts_cons, List.append_assoc] at hcurrent
  have hone : Reads lexeme n [(k, c :: x)] n₁ (Text.texts l ++ u) := .cons hfirst (.nil _ _)
  have htext : Text.texts [(k, c :: x)] = c :: x := by simp [Text.texts]
  refine ⟨n₁, Reads.append ?_ hone, hrest, leadsTo_of_lexeme hfirst⟩
  rwa [htext]

/-- The lexemes that have been read are not changed by one more. -/
theorem ne_stray_and_equals (h : ListWalk u current held (p :: l) n n') :
    (∀ q ∈ current ++ held ++ [p] ++ l, q.1 ≠ .stray) ∧
      hasBareEquals 0 (current ++ held ++ [p] ++ l) = false ∧
      ClosesComments (Text.texts (current ++ held ++ [p] ++ l)) u := by
  rw [← List.append_cons]
  exact ⟨h.ne_stray, h.equals, h.closes⟩

/-- In front of a selector a filler leads to the start of a list again. -/
theorem skip (h : ListWalk u [] [] (p :: l) n n') (hp : p.isFiller = true) :
    ListWalk u [] [] l (.start .selector) n' := by
  obtain ⟨n₁, hread, hrest, hleads⟩ := h.exists_reads_concat
  obtain ⟨hstray, hequals, hclosed⟩ := h.ne_stray_and_equals
  have hl := h.ne_nil_of_isFiller hp
  have hn : n = .start .selector := by
    cases h.reads_current
    rfl
  have hsound := h.sound
  subst hn
  obtain rfl := eq_start_of_leadsTo hleads (Lexeme.kind_mem_of_isFiller hp)
  obtain ⟨k, x⟩ := p
  refine ⟨.nil _ _, hrest, by simp, by simp, fun _ => rfl, fun _ => rfl, h.rest_last_tail,
    fun q hq => hstray q (List.mem_append_right _ hq), ?_, ?_, ?_⟩
  · cases k <;> first | exact hequals | cases hp
  · cases k <;> first | exact hsound | cases hp
  · exact ClosesComments.of_append (u := x) (by simpa using hclosed)

/-- A filler behind a selector is held. -/
theorem hold (h : ListWalk u current held (p :: l) n n') (hp : p.isFiller = true)
    (hcurrent : current ≠ []) : ∃ n₁, ListWalk u current (held ++ [p]) l n₁ n' := by
  obtain ⟨n₁, hread, hrest, hleads⟩ := h.exists_reads_concat
  have hsame := h.ne_stray_and_equals
  have hl := h.ne_nil_of_isFiller hp
  have hsound := h.sound
  rw [List.append_assoc current] at hread hsame
  refine ⟨n₁, hread, hrest, ?_, h.current_last, fun hnil => absurd hnil hcurrent,
    fun hnil => absurd hnil hl, h.rest_last_tail, hsame.1, hsame.2.1, ?_, hsame.2.2⟩
  · intro q hq
    rcases List.mem_append.mp hq with hq | hq
    · exact h.isFiller_held q hq
    · obtain rfl := List.mem_singleton.mp hq
      exact hp
  · rw [hleads.length_outer]
    obtain ⟨k, x⟩ := p
    cases k <;> first | exact hsound | cases hp

theorem eq_comma (h : ListWalk u current held (p :: l) n n') (hp : p.1 = .comma) :
    p = (.comma, [',']) := by
  cases h.reads_rest with
  | @cons _ n₁ _ k c x _ _ hfirst hrest =>
  obtain rfl : k = .comma := hp
  obtain ⟨-, rfl, hx⟩ := leadsTo_and_shows_of_lexeme hfirst
  rw [List.length_eq_zero_iff.mp hx]

/-- Behind a comma the list starts anew. -/
theorem next (h : ListWalk u current held (p :: l) n n') (hp : p.1 = .comma) :
    current ≠ [] ∧ n.outer = [] ∧ ListWalk u [] [] l (.start .selector) n' := by
  obtain ⟨n₁, hread, hrest, hleads⟩ := h.exists_reads_concat
  obtain ⟨hstray, hequals, hclosed⟩ := h.ne_stray_and_equals
  have hsound := h.sound
  obtain ⟨k, x⟩ := p
  obtain rfl : k = .comma := hp
  obtain ⟨houter, rfl⟩ := hleads
  obtain ⟨hitem, hsound'⟩ := Bool.and_eq_true_iff.mp hsound
  have hcurrent : current ≠ [] := by
    rintro rfl
    cases hitem
  have hground := isSelectorGround_of_reads h.reads_current (hasBareEquals_append h.equals).1
    isSelectorGround_start
  rw [Nesting.ground_of_nil houter] at hground
  have hstart := Nesting.behindSeparator_eq_start houter hground
  rw [hstart] at hread hrest
  have hcount := length_outer_of_reads hread
  refine ⟨hcurrent, houter, .nil _ _, hrest, by simp, by simp, fun _ => rfl, fun _ => rfl,
    h.rest_last_tail, fun q hq => hstray q (List.mem_append_right _ hq), ?_, ?_, ?_⟩
  · obtain ⟨-, hbehind⟩ := hasBareEquals_append hequals
    have hnone : bracketsAfter 0 (current ++ held ++ [(.comma, x)]) = 0 := hcount.symm
    rw [hnone] at hbehind
    exact hbehind
  · rw [houter] at hsound'
    exact hsound'
  · rw [Text.texts_append] at hclosed
    exact hclosed.of_append

/-- A selector goes on with everything else. -/
theorem extend (h : ListWalk u current held (p :: l) n n') (hp : p.isFiller = false)
    (hcomma : p.1 ≠ .comma) : ∃ n₁, ListWalk u (current ++ held ++ [p]) [] l n₁ n' := by
  obtain ⟨n₁, hread, hrest, hleads⟩ := h.exists_reads_concat
  obtain ⟨hstray, hequals, hclosed⟩ := h.ne_stray_and_equals
  have hsound := h.sound
  rw [← List.append_nil (current ++ held ++ [p])] at hread hstray hequals hclosed
  refine ⟨n₁, hread, hrest, by simp, ?_, by simp, fun _ => rfl, h.rest_last_tail, hstray, hequals,
    ?_, hclosed⟩
  · intro q hq
    rw [List.getLast?_concat] at hq
    obtain rfl := Option.some.inj hq
    exact hp
  · rw [hleads.length_outer]
    have hitem : (!(current ++ held ++ [p]).isEmpty) = true := by simp
    rw [hitem]
    obtain ⟨k, x⟩ := p
    cases k with
    | space | comment | lineComment => cases hp
    | comma => exact absurd rfl hcomma
    | closing => exact (Bool.and_eq_true_iff.mp hsound).2
    | stray => cases hsound
    | _ => exact hsound

end ListWalk

theorem bracketsAfter_of_isFiller {l : List Lexeme} (h : ∀ p ∈ l, p.isFiller = true)
    (brackets : Nat) : bracketsAfter brackets l = brackets := by
  induction l with
  | nil => rfl
  | cons p l ih =>
    obtain ⟨k, x⟩ := p
    have hk := Lexeme.kind_mem_of_isFiller (h _ List.mem_cons_self)
    have hrest := ih fun q hq => h q (List.mem_cons_of_mem _ hq)
    cases k <;> first | exact hrest | simp at hk

/-- No name goes on with white space or a comment. -/
theorem isNameChar_head?_of_isFiller {l : List Lexeme} {n n' : Nesting} {u : Text}
    (hl : ∀ p ∈ l, p.isFiller = true) (h : Reads lexeme n l n' u)
    (hu : ∀ c ∈ u.head?, isNameChar c = false) :
    ∀ c ∈ (Text.texts l ++ u).head?, isNameChar c = false := by
  cases h with
  | nil => exact hu
  | @cons _ n₁ _ k c x _ l hfirst hrest =>
    intro d hd
    obtain rfl : c = d := Option.some.inj hd
    obtain ⟨hfiller, -⟩ := filler_of_lexeme hfirst (hl _ List.mem_cons_self)
    cases (filler_eq_some_iff.mp hfiller).1 with
    | space hc => exact (EndsWord.endsName
        (endsWord_cons (endsPlain_of_isSheetSpace hc) [])).isNameChar c rfl
    | comment | lineComment => decide

theorem texts_ne_nil {n n' : Nesting} {u : Text} (h : Reads lexeme n l n' u) (hl : l ≠ []) :
    Text.texts l ≠ [] := by
  obtain ⟨p, l, rfl⟩ := List.exists_cons_of_ne_nil hl
  intro hnil
  rw [Text.texts_cons] at hnil
  exact h.piece_ne_nil p List.mem_cons_self (List.append_eq_nil_iff.mp hnil).1

/-- The lists begin with the same lexemes, up to where a pseudo-element is put. -/
def BeginsAlike (name : Text) (l l' : List Lexeme) : Prop :=
  ∃ front back behind p more behind', l = front ++ back ++ behind ∧
    l' = front ++ p :: more ++ behind' ∧
    Text.texts (p :: more) = Text.texts back ++ pseudoElement name ∧
    ∀ q ∈ p :: more, Lexeme.isFiller q = false

/-- A reading of a list with a pseudo-element behind each of its selectors. -/
structure ReadsWithPseudo (name : Text) (l : List Lexeme) (pieces : List SelectorPiece)
    (l' : List Lexeme) (r : Text) : Prop where
  reads : ∃ m, Reads lexeme (.start .selector) l' m r ∧ m.IsFlat
  texts_eq : Text.texts l' = pieces.flatMap (SelectorPiece.withPseudo (pseudoElement name))
  branch : ∃ text, .branch text ∈ pieces
  last : ∃ p, l'.getLast? = some p ∧ p.isFiller = false
  head? : (Text.texts l').head? = (Text.texts l).head?
  beginsAlike : ∀ p ∈ l.head?, p.isFiller = false → BeginsAlike name l l'

/-- What is read for a list begins as the list does. -/
theorem ReadsWithPseudo.head?_append {l l' : List Lexeme} {pieces : List SelectorPiece}
    (h : ReadsWithPseudo name l pieces l' r) (u : Text) :
    (Text.texts l' ++ r).head? = (Text.texts l ++ u).head? := by
  obtain ⟨m, hreads, -⟩ := h.reads
  obtain ⟨p, hp, -⟩ := h.last
  have hl' := texts_ne_nil hreads (by rintro rfl; cases hp)
  have hhead := h.head?
  obtain ⟨c, t, ht⟩ := List.exists_cons_of_ne_nil hl'
  rw [ht, List.head?_cons] at hhead
  have hl : (Text.texts l ++ u).head? = some c := by
    rw [List.head?_append, ← hhead]
    rfl
  rw [hl, ht]
  rfl

/-- The first selector of a list is read with its pseudo-element, and what follows it, too. -/
theorem readsWithPseudo_of_branch {current behind behind' : List Lexeme}
    {pieces : List SelectorPiece} (hcurrent : Text.texts current ≠ [])
    (hbranch : ReadsPseudoElement name (.start .selector) current (Text.texts behind' ++ r))
    (hbehind : ∀ m : Nesting, m.IsFlat → ∃ m', Reads lexeme m behind' m' r ∧ m'.IsFlat)
    (htexts : Text.texts behind' =
      pieces.flatMap (SelectorPiece.withPseudo (pseudoElement name)))
    (hlast : behind' = [] ∨ ∃ p, behind'.getLast? = some p ∧ p.isFiller = false) :
    ∃ l', ReadsWithPseudo name (current ++ behind) (.branch (Text.texts current) :: pieces) l'
      r := by
  obtain ⟨front, back, p, more, m, rfl, hreads, hflat, hall, hwords⟩ := hbranch
  obtain ⟨m', hreads', hflat'⟩ := hbehind m hflat
  refine ⟨front ++ p :: more ++ behind', ⟨m', hreads.append hreads', hflat'⟩, ?_,
    ⟨_, List.mem_cons_self⟩, ?_, ?_, ?_⟩
  · rw [Text.texts_append, hall, List.flatMap_cons, ← htexts]
    rfl
  · rcases hlast with rfl | ⟨q, hq, hfiller⟩
    · rw [List.append_nil]
      obtain ⟨words, q, hq⟩ := (p :: more).eq_nil_or_concat.resolve_left (by simp)
      rw [hq] at hwords ⊢
      exact ⟨q, by simp, hwords q (by simp)⟩
    · exact ⟨q, by rw [List.getLast?_append, hq]; rfl, hfiller⟩
  · rw [Text.texts_append, Text.texts_append _ behind, hall, List.append_assoc]
    obtain ⟨c, t, ht⟩ := List.exists_cons_of_ne_nil hcurrent
    rw [ht]
    rfl
  · rintro - - -
    rw [Text.texts_append, Text.texts_append front, List.append_assoc] at hall
    exact ⟨front, back, behind, p, more, behind', rfl, rfl, List.append_cancel_left hall, hwords⟩

namespace ListWalk

variable {current held : List Lexeme} {n' : Nesting} {p : Lexeme}

/-- The selector that is being read is read again with a pseudo-element, outside of brackets. -/
theorem readsPseudoElement (h : ListWalk u current held l n n') (houter : n.outer = [])
    (hname : IsPseudoName name) (hr : ∀ c ∈ r.head?, isNameChar c = false) :
    ReadsPseudoElement name (.start .selector) current r := by
  obtain ⟨n₁, hcurrent, hheld⟩ := h.reads_current.of_append
  have hlength := length_outer_of_reads hheld
  rw [bracketsAfter_of_isFiller h.isFiller_held, houter] at hlength
  have hclosed := h.closes
  rw [List.append_assoc, Text.texts_append, Text.texts_append] at hclosed
  refine readsPseudoElement_of_reads hcurrent (List.length_eq_zero_iff.mp hlength.symm) ?_ ?_
    h.current_last ?_ hname hr
  · exact fun q hq => h.ne_stray q (by simp [hq])
  · have hequals := h.equals
    rw [List.append_assoc] at hequals
    exact (hasBareEquals_append hequals).1
  · simpa using hclosed.of_append_left

theorem texts_current_ne_nil (h : ListWalk u current held l n n') (hcurrent : current ≠ []) :
    Text.texts current ≠ [] := by
  obtain ⟨n₁, hreads, -⟩ := h.reads_current.of_append
  exact texts_ne_nil hreads hcurrent

/-- In front of a selector white space and comments stay. -/
theorem readsWithPseudo_skip {l' : List Lexeme} (h : ListWalk u [] [] (p :: l) n n')
    (hp : p.isFiller = true) (hname : IsPseudoName name)
    (hl' : ReadsWithPseudo name l (selectorPieces [] [] l) l' r) :
    ReadsWithPseudo name (p :: l) (selectorPieces [] [] (p :: l))
      (p.withPseudo (pseudoElement name) :: l') r := by
  obtain ⟨n₁, hread, -, -⟩ := h.exists_reads_concat
  obtain ⟨m', hreads', hflat'⟩ := hl'.reads
  obtain ⟨⟨m, hm, -⟩, hhead⟩ := exists_reads_fillers hname isFlat_start (by simpa using hp) hread
    (hl'.head?_append u)
  obtain rfl : m = .start .selector := eq_start_of_reads hm (Lexeme.kind_mem_of_isFiller hp)
  rw [selectorPieces, if_pos hp]
  refine ⟨⟨m', hm.append hreads', hflat'⟩, ?_, ?_, ?_, ?_, ?_⟩
  · simp only [List.isEmpty_nil, if_true, List.flatMap_cons, Text.texts_cons, hl'.texts_eq]
    rfl
  · obtain ⟨text, htext⟩ := hl'.branch
    exact ⟨text, List.mem_cons_of_mem _ htext⟩
  · obtain ⟨q, hq, hfiller⟩ := hl'.last
    exact ⟨q, by rw [List.getLast?_cons, hq]; rfl, hfiller⟩
  · obtain ⟨c, x, hx⟩ := List.exists_cons_of_ne_nil (hread.piece_ne_nil p (by simp))
    obtain ⟨d, y, hy⟩ := List.exists_cons_of_ne_nil (hm.piece_ne_nil _ List.mem_cons_self)
    simpa [hx, hy] using hhead
  · rintro q hq hfiller
    obtain rfl : p = q := Option.some.inj hq
    rw [hp] at hfiller
    cases hfiller

/-- In front of a comma a selector ends. -/
theorem exists_readsWithPseudo_comma {l' : List Lexeme} (h : ListWalk u current held (p :: l) n n')
    (hp : p.1 = .comma) (hname : IsPseudoName name)
    (hl' : ReadsWithPseudo name l (selectorPieces [] [] l) l' r) :
    ∃ l', ReadsWithPseudo name (current ++ held ++ p :: l)
      (selectorPieces (Text.texts current) held (p :: l)) l' r := by
  obtain ⟨hcurrent, houter, -⟩ := h.next hp
  obtain rfl := h.eq_comma hp
  obtain ⟨n₁, -, hheld⟩ := h.reads_current.of_append
  obtain ⟨m', hreads', hflat'⟩ := hl'.reads
  have htexts := h.texts_current_ne_nil hcurrent
  have hfillers := fun m (hm : m.IsFlat) =>
    exists_reads_fillers (m := m) (r := ',' :: (Text.texts l' ++ r)) hname hm h.isFiller_held hheld
      rfl
  have hr : ∀ c ∈ (Text.texts (held.map (Lexeme.withPseudo (pseudoElement name))) ++
      ',' :: (Text.texts l' ++ r)).head?, isNameChar c = false := by
    rw [(hfillers _ isFlat_start).2]
    refine isNameChar_head?_of_isFiller h.isFiller_held hheld ?_
    intro c hc
    obtain rfl := Option.some.inj hc
    decide
  have hbranch : ReadsPseudoElement name (.start .selector) current
      (Text.texts (held.map (Lexeme.withPseudo (pseudoElement name)) ++ (.comma, [',']) :: l')
        ++ r) :=
    h.readsPseudoElement houter hname (by simpa [Text.texts_append] using hr)
  have hpieces : Text.texts (held.map (Lexeme.withPseudo (pseudoElement name)) ++
      (.comma, [',']) :: l') =
      (held.map SelectorPiece.ofFiller ++ SelectorPiece.gap [','] :: selectorPieces [] [] l).flatMap
        (SelectorPiece.withPseudo (pseudoElement name)) := by
    rw [Text.texts_append, texts_map_withPseudo, Text.texts_cons, hl'.texts_eq,
      List.flatMap_append]
    rfl
  obtain ⟨q, hq, hfiller⟩ := hl'.last
  have hlast : (held.map (Lexeme.withPseudo (pseudoElement name)) ++
      (.comma, [',']) :: l').getLast? = some q := by
    rw [List.getLast?_append, List.getLast?_cons, hq]
    rfl
  rw [selectorPieces, if_neg (by decide), if_pos rfl, List.isEmpty_eq_false_iff.mpr htexts,
    List.append_assoc]
  refine readsWithPseudo_of_branch htexts hbranch (fun m hm => ?_) hpieces
    (Or.inr ⟨q, hlast, hfiller⟩)
  obtain ⟨⟨m₁, hm₁, hflat₁⟩, -⟩ := hfillers m hm
  have hcomma := lexeme_comma hflat₁.outer (Text.texts l' ++ r)
  rw [Nesting.behindSeparator_eq_start hflat₁.outer hflat₁.ground] at hcomma
  exact ⟨m', hm₁.append (.cons hcomma hreads'), hflat'⟩

/-- A selector list is read as a list again with a pseudo-element behind each of its selectors. -/
theorem exists_readsWithPseudo (h : ListWalk u current held l n n') (hn' : n'.outer = [])
    (hname : IsPseudoName name) (hr : ∀ c ∈ r.head?, isNameChar c = false) :
    ∃ l', ReadsWithPseudo name (current ++ held ++ l)
      (selectorPieces (Text.texts current) held l) l' r := by
  induction l generalizing current held n with
  | nil =>
    obtain rfl := h.held_of_rest rfl
    have hcurrent : current ≠ [] := by
      have hsound := (Bool.and_eq_true_iff.mp h.sound).2
      rintro rfl
      cases hsound
    have htexts := texts_ne_nil h.reads_current (by simpa using hcurrent)
    rw [List.append_nil] at htexts
    cases h.reads_rest
    rw [selectorPieces, List.isEmpty_eq_false_iff.mpr htexts]
    have hbranch : ReadsPseudoElement name (.start .selector) current
        (Text.texts ([] : List Lexeme) ++ r) := h.readsPseudoElement hn' hname hr
    rw [List.append_nil]
    exact readsWithPseudo_of_branch htexts hbranch (fun m hm => ⟨m, .nil _ _, hm⟩) rfl (Or.inl rfl)
  | cons p l ih =>
    cases hfiller : p.isFiller with
    | true =>
      by_cases hcurrent : current = []
      · -- in front of a selector: white space or a comment stays what it is
        obtain rfl := hcurrent
        obtain rfl := h.held_of_current rfl
        obtain ⟨l', hl'⟩ := ih (h.skip hfiller)
        exact ⟨_, h.readsWithPseudo_skip hfiller hname hl'⟩
      · obtain ⟨n₁, hnext⟩ := h.hold hfiller hcurrent
        obtain ⟨l', hl'⟩ := ih hnext
        rw [selectorPieces, if_pos hfiller, if_neg (by simpa using h.texts_current_ne_nil hcurrent)]
        exact ⟨l', by simpa using hl'⟩
    | false =>
      by_cases hcomma : p.1 = .comma
      · obtain ⟨hcurrent, houter, hnext⟩ := h.next hcomma
        obtain ⟨l', hl'⟩ := ih hnext
        exact h.exists_readsWithPseudo_comma hcomma hname hl'
      · obtain ⟨n₁, hnext⟩ := h.extend hfiller hcomma
        obtain ⟨l', hl'⟩ := ih hnext
        rw [selectorPieces, if_neg (by simp [hfiller]), if_neg hcomma]
        exact ⟨l', by simpa [Text.texts_append] using hl'⟩

end ListWalk

end LeadingTrim.Sheet

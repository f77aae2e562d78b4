/-
# Carriage returns are not made up

A sheet without carriage returns is trimmed to one without (`return_not_mem_code`). What is written
for a directive is text of the sheet, selectors with pseudo-elements behind them, lengths, and fixed
text; a property of texts that all of these have is kept when they are put together
(`of_mem_editsOf`). A length is made of letters, digits and a few signs
(`isLengthChar_of_mem_ofMetrics`), whatever the numbers are, for a unit consists of letters and
percent signs (`IsUnit`).
-/

import LeadingTrim.Proofs.Decimal.Shortest
import LeadingTrim.Proofs.Edit.Trace
import LeadingTrim.Proofs.Metrics.LineHeight
import LeadingTrim.Proofs.Sheet.Pieces
import LeadingTrim.Proofs.Trimmer.Failure

namespace LeadingTrim

open Sheet (Declaration Rule)

/-! ## Lengths -/

/-- A character of the text of a length. -/
def isLengthChar (c : Char) : Bool := c.isAlphanum || "-.%() /".toList.contains c

/-- A character of the text of a number. -/
def isNumberChar (c : Char) : Bool := c.isAlphanum || c == '-' || c == '.'

theorem isNumberChar_of_isDigit {c : Char} (h : c.isDigit = true) : isNumberChar c = true := by
  simp [isNumberChar, Char.isAlphanum, h]

theorem isLengthChar_of_isNumberChar {c : Char} (h : isNumberChar c = true) :
    isLengthChar c = true := by
  simp only [isNumberChar, Bool.or_eq_true, beq_iff_eq] at h
  rcases h with (h | rfl) | rfl
  · rw [isLengthChar, h, Bool.true_or]
  · decide
  · decide

namespace Decimal

theorem isNumberChar_of_mem_writePositional {d : Digits}
    (hd : ∀ c ∈ d.digits, isNumberChar c = true) :
    ∀ c ∈ Format.plain.writePositional d, isNumberChar c = true := by
  have hzeros : ∀ n, ∀ c ∈ List.replicate n '0', isNumberChar c = true := by
    intro n c hc
    rw [List.eq_of_mem_replicate hc]
    decide
  unfold Format.writePositional
  split
  · simp only [List.cons_append, List.forall_mem_cons, List.forall_mem_append]
    exact ⟨by decide, by decide, hzeros _, hd⟩
  · simp only [List.forall_mem_cons]
    exact ⟨by decide, by decide, hd⟩
  · split
    · simp only [List.forall_mem_append]
      exact ⟨⟨hd, hzeros _⟩, by decide⟩
    · simp only [List.forall_mem_cons, List.forall_mem_append]
      exact ⟨fun c hc => hd c (List.mem_of_mem_take hc), by decide,
        fun c hc => hd c (List.mem_of_mem_drop hc)⟩

theorem isNumberChar_of_mem_write (x : Float) :
    ∀ c ∈ Format.plain.write x, isNumberChar c = true := by
  have hmagnitude : ∀ c ∈ Format.plain.writeMagnitude x, isNumberChar c = true := by
    unfold Format.writeMagnitude
    dsimp only
    split
    · decide
    · exact isNumberChar_of_mem_writePositional fun c hc =>
        isNumberChar_of_isDigit (isDigit_of_mem_shortest _ _ c hc)
  unfold Format.write
  split
  · decide
  · refine List.forall_mem_append.mpr ⟨?_, ?_⟩
    · split <;> decide
    · split
      · decide
      · exact hmagnitude

theorem isNumberChar_of_mem_lengthText (x : Float) :
    ∀ c ∈ lengthText x, isNumberChar c = true := by
  unfold lengthText
  split
  · decide
  · exact isNumberChar_of_mem_write x

end Decimal

/-! ## Units -/

/-- The text is made of letters and percent signs. -/
def IsUnit (t : Text) : Prop := ∀ c ∈ t, c.isAlpha = true ∨ c = '%'

theorem IsUnit.isLengthChar {t : Text} (h : IsUnit t) : ∀ c ∈ t, isLengthChar c = true := by
  intro c hc
  rcases h c hc with hc | rfl
  · simp [LeadingTrim.isLengthChar, Char.isAlphanum, hc]
  · decide

namespace LineHeight

theorem IsRead.isUnit {h : LineHeight} (hread : h.IsRead) : IsUnit h.unit := by
  intro c hc
  rcases hread.unit_eq_or with hunit | hunit
  · rw [hunit] at hc
    exact Or.inr (List.mem_singleton.mp hc)
  · exact Or.inl (hunit c hc)

theorem isUnit_normalize {h : LineHeight} (hunit : IsUnit h.unit) : IsUnit h.normalize.unit := by
  unfold normalize
  split
  · exact fun c hc => absurd hc List.not_mem_nil
  · split
    · exact fun c hc => absurd hc List.not_mem_nil
    · exact hunit

/-- The line height that applies has the unit of one that is read, or none. -/
theorem isUnit_resolve {given : Option LineHeight} (hgiven : ∀ h ∈ given, h.IsRead)
    (ambient : Option Text) (default : Float) : IsUnit (resolve given ambient default).unit := by
  obtain ⟨h, hresolve, hread | rfl⟩ := exists_resolve_eq hgiven ambient default
  · rw [hresolve]
    exact isUnit_normalize hread.isUnit
  · rw [hresolve]
    exact isUnit_normalize fun c hc => absurd hc List.not_mem_nil

end LineHeight

/-- What is written for a margin consists of characters of lengths. -/
theorem isLengthChar_of_mem_ofMetrics {m : Metrics} (hunit : IsUnit m.lineHeight.unit) :
    (∀ c ∈ (Offsets.ofMetrics m).before, isLengthChar c = true) ∧
      ∀ c ∈ (Offsets.ofMetrics m).after, isLengthChar c = true := by
  have hnumber : ∀ x : Float, ∀ c ∈ Decimal.lengthText x, isLengthChar c = true := fun x c hc =>
    isLengthChar_of_isNumberChar (Decimal.isNumberChar_of_mem_lengthText x c hc)
  have hem : ∀ lineHeight space : Float,
      ∀ c ∈ Offsets.emText lineHeight space, isLengthChar c = true := by
    intro lineHeight space
    rw [Offsets.emText, List.forall_mem_append]
    exact ⟨hnumber _, by decide⟩
  have hcalc : ∀ space : Float,
      ∀ c ∈ Offsets.calcText m.lineHeight space, isLengthChar c = true := by
    intro space
    unfold Offsets.calcText
    simp only [List.forall_mem_append]
    exact ⟨⟨⟨⟨⟨by decide, hnumber _⟩, by decide⟩, hnumber _⟩, hunit.isLengthChar⟩, by decide⟩
  unfold Offsets.ofMetrics
  split
  · exact ⟨fun c hc => absurd hc List.not_mem_nil, fun c hc => absurd hc List.not_mem_nil⟩
  · dsimp only
    split
    · exact ⟨hem _ _, hem _ _⟩
    · exact ⟨hcalc _, hcalc _⟩

/-! ## Selectors -/

namespace Text

theorem dropBytes_subset (n : Nat) (t : Text) : t.dropBytes n ⊆ t := by
  intro c hc
  rw [← takeBytes_append_dropBytes n t]
  exact List.mem_append_right _ hc

theorem slice_subset (start stop : Nat) (t : Text) : t.slice start stop ⊆ t := by
  intro c hc
  refine dropBytes_subset start t ?_
  rw [← takeBytes_append_dropBytes (stop - start) (t.dropBytes start)]
  exact List.mem_append_left _ hc

theorem trimEnd_subset (t : Text) : t.trimEnd ⊆ t := by
  obtain ⟨tail, htail, -⟩ := exists_trimEnd_append t
  intro c hc
  rw [htail]
  exact List.mem_append_left _ hc

/-- The pieces of a text are text of it. -/
theorem Splitter.subset_of_mem_pieces {p : Splitter} {d : Depth} {t : Text} {piece : Text × Text}
    (h : piece ∈ p.pieces d t) : piece.1 ⊆ t := by
  induction t generalizing d piece with
  | nil =>
    obtain rfl := List.mem_singleton.mp h
    exact List.Subset.refl _
  | cons c t ih =>
    rw [pieces] at h
    split at h
    · rcases List.mem_cons.mp h with rfl | h
      · exact List.nil_subset _
      · exact List.subset_cons_of_subset _ (ih h)
    · split at h
      · obtain rfl := List.mem_singleton.mp h
        exact List.cons_subset_cons c (List.nil_subset _)
      next hpieces =>
        rcases List.mem_cons.mp h with rfl | h
        · exact List.cons_subset_cons c (ih (hpieces ▸ List.mem_cons_self))
        · exact List.subset_cons_of_subset _ (ih (hpieces ▸ List.mem_cons_of_mem _ h))

end Text

namespace Selector

theorem mem_of_mem_appendFrom {list pseudo : Text} {cursor : Nat} {branches : List (Nat × Nat)}
    {c : Char} (hc : c ∈ appendFrom list pseudo cursor branches) : c ∈ list ∨ c ∈ pseudo := by
  induction branches generalizing cursor with
  | nil => exact Or.inl (Text.dropBytes_subset _ _ hc)
  | cons branch branches ih =>
    rw [appendFrom, List.mem_append, List.mem_append] at hc
    rcases hc with (hc | hc) | hc
    · exact Or.inl (Text.slice_subset _ _ _ hc)
    · exact Or.inr hc
    · exact ih hc

/-- A selector list with pseudo-elements is made of the list, the pseudo-element and commas. -/
theorem mem_of_mem_append {list pseudo : Text} {branches : List (Nat × Nat)} {c : Char}
    (hc : c ∈ append list branches pseudo) : c ∈ list ∨ c ∈ pseudo ∨ c = ',' := by
  unfold append at hc
  split at hc
  · rcases Text.mem_of_mem_joinWith hc with hc | ⟨t, ht, hc⟩
    · exact Or.inr (Or.inr (List.mem_singleton.mp hc))
    · obtain ⟨piece, hpiece, rfl⟩ := List.mem_map.mp ht
      have hsub := Text.Splitter.subset_of_mem_pieces hpiece
      rw [withPseudo, List.mem_append, List.mem_append] at hc
      rcases hc with (hc | hc) | hc
      · exact Or.inl (hsub (Text.trimEnd_subset _ hc))
      · exact Or.inr (Or.inl hc)
      · exact Or.inl (hsub (List.mem_of_mem_drop hc))
  · rcases mem_of_mem_appendFrom hc with hc | hc
    · exact Or.inl hc
    · exact Or.inr (Or.inl hc)

end Selector

/-! ## Corrections -/

/-- A property of texts that all texts without line breaks have, and what is put together from texts
that have it. -/
structure Text.IsAdditive (P : Text → Prop) : Prop where
  plain : ∀ t : Text, '\r' ∉ t → '\n' ∉ t → P t
  append : ∀ {s t : Text}, P s → P t → P (s ++ t)

/-- A length has no line breaks in it. -/
theorem Text.IsAdditive.length {P : Text → Prop} (hP : Text.IsAdditive P) {t : Text}
    (ht : ∀ c ∈ t, isLengthChar c = true) : P t :=
  hP.plain t (fun hmem => absurd (ht _ hmem) (by decide)) fun hmem =>
    absurd (ht _ hmem) (by decide)

namespace Correction

/-- The texts from which it is put together what is written for a directive have a property. -/
structure IsMadeOf (P : Text → Prop) (source : Text) (r : Rule) (d : Declaration) : Prop where
  newline : P (lineBreak source)
  indent : P r.indent
  selector : ∀ pseudo : Text, '\r' ∉ pseudo → '\n' ∉ pseudo →
    P (Selector.append r.selector r.branches pseudo)
  separator : P d.separator
  leading : P (d.leading source)

section IsMadeOf

variable {P : Text → Prop} (hP : Text.IsAdditive P) {source : Text} {r : Rule} {d : Declaration}
  (h : IsMadeOf P source r d) {o : Offsets}
  (ho : (∀ c ∈ o.before, isLengthChar c = true) ∧ ∀ c ∈ o.after, isLengthChar c = true)

include hP h ho

theorem IsMadeOf.of_pseudoRules (p : Placement) : P (pseudoRules source r p o) := by
  have hrule : ∀ pseudo side value : Text, '\r' ∉ pseudo → '\n' ∉ pseudo → P side → P value →
      P (pseudoRule (lineBreak source) r pseudo side value) := by
    intro pseudo side value hreturn hfeed hside hvalue
    have hhead := hP.append (hP.append h.newline h.indent) (h.selector pseudo hreturn hfeed)
    have hbrace := hP.plain " \x7bdisplay: table;content: \"\";margin-".toList (by decide)
      (by decide)
    have hmargin := hP.append (hP.append hhead hbrace) hside
    have hcolon := hP.plain ": ".toList (by decide) (by decide)
    have hlength := hP.append (hP.append hmargin hcolon) hvalue
    exact hP.append hlength (hP.plain ";\x7d".toList (by decide) (by decide))
  have hnone : P [] := hP.plain [] List.not_mem_nil List.not_mem_nil
  refine hP.append ?_ ?_
  · split
    · exact hrule _ _ _ (by decide) (by decide) (hP.plain _ (by decide) (by decide))
        (hP.length ho.1)
    · exact hnone
  · split
    · exact hrule _ _ _ (by decide) (by decide) (hP.plain _ (by decide) (by decide))
        (hP.length ho.2)
    · exact hnone

theorem IsMadeOf.of_marginText (p : Placement) : P (marginText source d p o) := by
  have hmargin : ∀ side value : Text, P side → P value → P (margin d side value) := by
    intro side value hside hvalue
    have hname := hP.append (hP.plain "margin-".toList (by decide) (by decide)) hside
    exact hP.append (hP.append hname h.separator) hvalue
  have htop := hmargin "top".toList o.before (hP.plain _ (by decide) (by decide)) (hP.length ho.1)
  have hbottom := hmargin "bottom".toList o.after (hP.plain _ (by decide) (by decide))
    (hP.length ho.2)
  refine hP.append ?_ (hP.plain _ (by split <;> decide) (by split <;> decide))
  cases p with
  | before => exact htop
  | after => exact hbottom
  | both =>
    have hbetween := hP.append (hP.plain [';'] (by decide) (by decide)) h.leading
    simpa using hP.append (hP.append htop hbetween) hbottom

theorem IsMadeOf.of_mem_edits {scope : Scope} {p : Placement} {e : Edit}
    (he : e ∈ edits source r d scope p o) : P e.text := by
  have hnone : P [] := hP.plain [] List.not_mem_nil List.not_mem_nil
  unfold edits at he
  split at he
  · obtain rfl := List.mem_singleton.mp he
    exact hnone
  next q _ =>
    cases scope with
    | outside =>
      obtain rfl := List.mem_singleton.mp he
      exact h.of_marginText hP ho q
    | inside =>
      rcases List.mem_cons.mp he with rfl | he
      · exact hnone
      · obtain rfl := List.mem_singleton.mp he
        exact h.of_pseudoRules hP ho q

end IsMadeOf

/-- In a sheet without carriage returns there are none in what is written. -/
theorem isMadeOf_of_return_not_mem {source : Text} (hsource : '\r' ∉ source) {rules : List Rule}
    (hrules : Sheet.AreRead source rules) {r : Rule} (hr : r ∈ rules) {d : Declaration}
    (hd : d ∈ r.declarations) :
    IsMadeOf (fun t => '\r' ∉ t) source r d where
  newline := by
    unfold lineBreak
    split
    next h =>
      have hlast := List.mem_of_getLast? (beq_iff_eq.mp (Bool.and_eq_true_iff.mp h).2)
      exact absurd ((List.takeWhile_sublist _).subset hlast) hsource
    · decide
  indent hmem := absurd (hrules.indent r hr _ hmem) (by decide)
  selector pseudo hpseudo _ := by
    intro hmem
    rcases Selector.mem_of_mem_append hmem with hmem | hmem | hmem
    · exact hsource (hrules.selector r hr hmem)
    · exact hpseudo hmem
    · exact absurd hmem (by decide)
  separator hmem := hsource (hrules.separator r hr d hd hmem)
  leading hmem := hsource (Text.slice_subset _ _ _ hmem)

end Correction

theorem Text.isAdditive_return_not_mem : Text.IsAdditive fun t => '\r' ∉ t where
  plain _ hreturn _ := hreturn
  append hs ht hmem := (List.mem_append.mp hmem).elim hs ht

/-! ## Runs -/

namespace Trimmer

variable {t : Trimmer} {source : Text}

/-- What is written for a directive is put together from lengths, plain text and the pieces of the
sheet. -/
theorem of_mem_editsOf {P : Text → Prop} (hP : Text.IsAdditive P) {x : Rule × Declaration}
    (h : Correction.IsMadeOf P source x.1 x.2) {e : Edit} (he : e ∈ t.editsOf source x) :
    P e.text := by
  unfold editsOf at he
  split at he
  · cases he
  next directive hread =>
    have hunit : IsUnit (t.metrics x.1 directive).lineHeight.unit :=
      LineHeight.isUnit_resolve (Directive.isRead_of_read? hread) _ _
    exact h.of_mem_edits hP (isLengthChar_of_mem_ofMetrics hunit) he

end Trimmer

theorem Edit.mem_of_mem_applyFrom {source : Text} {cursor : Nat} {edits : List Edit} {c : Char}
    (hc : c ∈ applyFrom source cursor edits) : c ∈ source ∨ ∃ e ∈ edits, c ∈ e.text := by
  induction edits generalizing cursor with
  | nil => exact Or.inl (Text.dropBytes_subset _ _ hc)
  | cons e edits ih =>
    rw [applyFrom, List.mem_append, List.mem_append] at hc
    rcases hc with (hc | hc) | hc
    · exact Or.inl (Text.slice_subset _ _ _ hc)
    · exact Or.inr ⟨e, List.mem_cons_self, hc⟩
    · rcases ih hc with hc | ⟨a, ha, hca⟩
      · exact Or.inl hc
      · exact Or.inr ⟨a, List.mem_cons_of_mem _ ha, hca⟩

namespace Trimmer

variable {t : Trimmer} {source code : Text} {rules : List Rule} {edits : List Edit}

/-- In a sheet without carriage returns none is written. -/
theorem return_not_mem_text (hsource : '\r' ∉ source) (hrules : Sheet.AreRead source rules)
    (h : t.runOn source rules = .ok (code, edits)) : ∀ e ∈ edits, '\r' ∉ e.text := by
  intro e he
  obtain ⟨x, hx, hmem⟩ := (spec_of_runOn t hrules.toFits h).2.2 e he
  obtain ⟨hr, hd, -⟩ := mem_directives.mp hx
  exact of_mem_editsOf Text.isAdditive_return_not_mem
    (Correction.isMadeOf_of_return_not_mem hsource hrules hr hd) hmem

/-- A sheet without carriage returns is trimmed to one without. -/
theorem return_not_mem_code (hsource : '\r' ∉ source) (hrules : Sheet.AreRead source rules)
    (h : t.runOn source rules = .ok (code, edits)) : '\r' ∉ code := by
  intro hmem
  rw [(spec_of_runOn t hrules.toFits h).1] at hmem
  rcases Edit.mem_of_mem_applyFrom hmem with hmem | ⟨e, he, hmem⟩
  · exact hsource hmem
  · exact return_not_mem_text hsource hrules h e he hmem

end Trimmer

end LeadingTrim

/-
# Calm texts

A text is calm when it holds nothing but letters, digits, points, hyphens, percent signs, blanks,
slashes in front of a space, and round brackets that are opened and closed (`IsCalm`). The values
that are written into a sheet are of this kind. A calm text is read through wherever it stands in a
row, lexeme by lexeme, whatever these are (`exists_reads_of_isCalm`).
-/

import LeadingTrim.Proofs.Sheet.DeclarationLocal
import LeadingTrim.Proofs.Sheet.Ground

namespace LeadingTrim.Sheet

open Text (isSheetSpace isBlank Reads)

/-! ## Calm texts -/

/-- A letter, a digit, a point, a hyphen, a percent sign or a blank. -/
def isCalmChar (c : Char) : Bool :=
  c.isAlphanum || c == '.' || c == '-' || c == '%' || isBlank c

/-- From some number of open brackets to another the text is calm. -/
inductive IsCalm : Nat → Text → Nat → Prop
  | nil (depth : Nat) : IsCalm depth [] depth
  | char {depth depth' : Nat} {c : Char} {t : Text} (hc : isCalmChar c = true)
    (ht : IsCalm depth t depth') : IsCalm depth (c :: t) depth'
  | slash {depth depth' : Nat} {t : Text} (ht : IsCalm depth (' ' :: t) depth') :
    IsCalm depth ('/' :: ' ' :: t) depth'
  | opening {depth depth' : Nat} {t : Text} (ht : IsCalm (depth + 1) t depth') :
    IsCalm depth ('(' :: t) depth'
  | closing {depth depth' : Nat} {t : Text} (ht : IsCalm depth t depth') :
    IsCalm (depth + 1) (')' :: t) depth'

theorem IsCalm.append {a b d : Nat} {s t : Text} (hs : IsCalm a s b) (ht : IsCalm b t d) :
    IsCalm a (s ++ t) d := by
  induction hs with
  | nil => exact ht
  | char hc _ ih => exact .char hc (ih ht)
  | slash _ ih => exact .slash (ih ht)
  | opening _ ih => exact .opening (ih ht)
  | closing _ ih => exact .closing (ih ht)

theorem isCalm_of_all {t : Text} (h : ∀ c ∈ t, isCalmChar c = true) (depth : Nat) :
    IsCalm depth t depth := by
  induction t with
  | nil => exact .nil depth
  | cons c t ih =>
    obtain ⟨hc, ht⟩ := List.forall_mem_cons.mp h
    exact .char hc (ih ht)

theorem not_isCalmChar : ∀ c ∈ ['/', '(', ')', '\\', '\x7b', '\x7d', ';', ',', '[', ']', '\'', '"',
    '!', ':', '*', '@'], isCalmChar c = false := by
  decide

/-- The rest behind calm characters is calm. -/
theorem IsCalm.of_append {a b : Nat} {s t : Text} (hs : ∀ c ∈ s, isCalmChar c = true)
    (h : IsCalm a (s ++ t) b) : IsCalm a t b := by
  induction s with
  | nil => exact h
  | cons c s ih =>
    obtain ⟨hc, hs⟩ := List.forall_mem_cons.mp hs
    have hne : c ≠ '/' ∧ c ≠ '(' ∧ c ≠ ')' := by
      refine ⟨?_, ?_, ?_⟩ <;> rintro rfl <;> exact absurd hc (by decide)
    generalize hu : c :: s ++ t = u at h
    cases h with
    | nil => cases hu
    | char _ ht =>
      obtain ⟨-, rfl⟩ := List.cons.inj hu
      exact ih hs ht
    | slash => exact absurd (List.cons.inj hu).1 hne.1
    | opening => exact absurd (List.cons.inj hu).1 hne.2.1
    | closing => exact absurd (List.cons.inj hu).1 hne.2.2

theorem beginsWord_of_isCalmChar {c : Char} (hc : isCalmChar c = true)
    (hspace : isSheetSpace c = false) : beginsWord c = true ∧ c ≠ '/' ∧ c ≠ '\\' := by
  have hne : ∀ a ∈ ['/', '(', ')', '\\', '\x7b', '\x7d', ';', ',', '[', ']', '\'', '"',
      '!', ':', '*', '@'], c ≠ a := by
    rintro a ha rfl
    rw [not_isCalmChar c ha] at hc
    cases hc
  refine ⟨?_, hne _ (by decide), hne _ (by decide)⟩
  rw [beginsWord, hspace, Bool.false_or, Bool.not_eq_true', List.contains_eq_mem,
    decide_eq_false_iff_not]
  intro hmem
  have hsubset : ∀ a ∈ ['\x7b', '\x7d', ';', ',', '(', '[', ')', ']', '\'', '"'],
      a ∈ ['/', '(', ')', '\\', '\x7b', '\x7d', ';', ',', '[', ']', '\'', '"', '!', ':', '*',
        '@'] := by decide
  exact hne c (hsubset c hmem) rfl

/-! ## Words in calm texts -/

theorem ite_zero_le {p : Prop} [Decidable p] {n m : Nat} (h : n ≤ m) :
    (if p then 0 else n) ≤ m := by
  split
  · exact Nat.zero_le m
  · exact h

theorem exponentLength_le (t : Text) : exponentLength t ≤ t.length := by
  cases t with
  | nil => exact Nat.le_refl 0
  | cons c t =>
    unfold exponentLength
    split
    next hc =>
      injection hc with hc ht
      subst hc ht
      rw [List.length_cons]
      split
      · split
        next sign digits hpair =>
          refine ite_zero_le ?_
          split at hpair
          next more =>
            obtain ⟨rfl, rfl⟩ := Prod.mk.inj hpair
            have := length_takeWhile_le_length Char.isDigit more
            simp only [List.length_cons]
            omega
          · obtain ⟨rfl, rfl⟩ := Prod.mk.inj hpair
            have := length_takeWhile_le_length Char.isDigit t
            omega
      · exact Nat.zero_le _
    · exact Nat.zero_le _

theorem unsignedLength_le (t : Text) : unsignedLength t ≤ t.length := by
  have hdigits := length_takeWhile_le_length Char.isDigit t
  have hfraction := fractionLength_le (t.drop (t.takeWhile Char.isDigit).length)
  have hexponent := exponentLength_le (t.drop ((t.takeWhile Char.isDigit).length
    + fractionLength (t.drop (t.takeWhile Char.isDigit).length)))
  rw [List.length_drop] at hfraction hexponent
  rw [unsignedLength_eq]
  omega

theorem numberLength_le (t : Text) : numberLength t ≤ t.length := by
  have hunsigned := unsignedLength_le (t.drop (signLength t))
  rw [List.length_drop] at hunsigned
  rw [numberLength_eq]
  split
  · exact Nat.zero_le _
  · omega

theorem length_markText_le (c : Char) (t : Text) :
    (markText (c :: t)).length ≤ (c :: t).length := by
  unfold markText
  split
  next heq =>
    rw [heq]
    simp
  · simp

theorem place_word_le {c : Char} (hc : c ≠ '\\') (p : Place) (t : Text) :
    (p.word (c :: t)).2 ≤ (c :: t).length := by
  have hname : (nameOrMark p (c :: t)).2 ≤ (c :: t).length := by
    rw [nameOrMark_of_ne hc]
    split
    · exact length_markText_le c t
    · exact nameLengthAt_le p _
  unfold Place.word
  dsimp only
  split
  · exact hname
  split
  · exact numberLength_le _
  split
  · exact plainLength_le _
  split
  next himportant => exact length_le_of_startsWith himportant
  · exact hname

/-- A word that is no escape does not go beyond the text. -/
theorem word_le {c : Char} (hc : c ≠ '\\') (n : Nesting) (t : Text) :
    (n.word (c :: t)).2 ≤ (c :: t).length := by
  have hunit : ∀ next, unitLength next (c :: t) ≤ (c :: t).length := by
    intro next
    exact ite_zero_le (length_takeWhile_le_length _ _)
  have hdigits : ∀ p, digitsLength p (c :: t) ≤ (c :: t).length := by
    intro p
    refine ite_zero_le ?_
    unfold colourLength
    dsimp only
    split
    · exact Nat.le_trans (length_takeWhile_le_length isHex _) (List.length_take_le' 8 _)
    · exact Nat.zero_le _
  unfold Nesting.word
  dsimp only
  split
  · split
    · exact hunit _
    · exact place_word_le hc _ t
  · split
    · exact hdigits _
    · exact place_word_le hc _ t
  · exact place_word_le hc _ t

/-- No calm word goes on into the text: a comment may begin there, or a slash stand alone. -/
def EndsCalm (r : Text) : Prop :=
  EndsWord r ∨ ∃ e y, r = '/' :: e :: y ∧ (e == '*' || endsPlain e) = true

/-- The word at the front does not go beyond a stretch of calm characters. -/
theorem word_le_of_calm {c : Char} {w r : Text} (hc : isCalmChar c = true)
    (hw : ∀ a ∈ w, isCalmChar a = true) (hr : EndsCalm r) (n : Nesting) :
    (n.word (c :: (w ++ r))).2 ≤ w.length + 1 := by
  have hescape : c ≠ '\\' := by
    rintro rfl
    exact absurd hc (by decide)
  have heq : n.word (c :: w ++ r) = n.word (c :: w) := by
    rcases hr with hr | ⟨e, y, rfl, he⟩
    · exact word_append hr.endsName hescape (plainLength_append hr (c :: w)) n
    · have hlast : (c :: w).getLast? ≠ some '/' := by
        intro hlast
        have hmem := List.mem_of_getLast? hlast
        have hcalm : ∀ a ∈ c :: w, isCalmChar a = true := List.forall_mem_cons.mpr ⟨hc, hw⟩
        exact absurd (hcalm _ hmem) (by decide)
      exact word_append (endsName_slash _) hescape (plainLength_append_slash he hlast y) n
  rw [← List.cons_append, heq]
  exact word_le hescape n w

/-- A stretch of calm characters begins with a word. -/
theorem lexeme_of_calm {c : Char} {w r : Text} (hc : isCalmChar c = true)
    (hspace : isSheetSpace c = false) (hw : ∀ a ∈ w, isCalmChar a = true) (hr : EndsCalm r)
    (n : Nesting) :
    ∃ word more, more ≤ w.length ∧
      lexeme n c (w ++ r) = some ⟨.word, n.behindWord word, more⟩ := by
  obtain ⟨hword, hslash, -⟩ := beginsWord_of_isCalmChar hc hspace
  have hne : (c == '/') = false := beq_eq_false_iff_ne.mpr hslash
  have hle := word_le_of_calm hc hw hr n
  refine ⟨(n.word (c :: (w ++ r))).1, (n.word (c :: (w ++ r))).2 - 1, by omega, ?_⟩
  rw [lexeme_of_beginsWord hword, hne]
  rfl

/-- A slash in front of a space is a word. -/
theorem lexeme_slash_space (n : Nesting) (t : Text) :
    ∃ word, lexeme n '/' (' ' :: t) = some ⟨.word, n.behindWord word, 0⟩ := by
  have hend : EndsWord (' ' :: t) := endsWord_cons (by decide) t
  have heq := word_append hend.endsName (a := '/') (by decide) (plainLength_append hend ['/']) n
  have hle := word_le (c := '/') (by decide) n []
  have hword : (n.word ('/' :: ' ' :: t)).2 ≤ 1 := by
    rw [show '/' :: ' ' :: t = ['/'] ++ ' ' :: t from rfl, heq]
    exact hle
  refine ⟨(n.word ('/' :: ' ' :: t)).1, ?_⟩
  rw [lexeme_of_beginsWord (by decide), if_neg (by simp), if_neg (by simp),
    Nat.sub_eq_zero_of_le hword]

/-- A lexeme of a calm text. -/
def IsCalmLexeme (p : Lexeme) : Prop :=
  p.1 = .space ∧ (∀ c ∈ p.2, isSheetSpace c = true) ∨ p.1 = .word ∨ p.1 = .opening ∨ p.1 = .closing

/-- A reading of a calm text, which leaves some number of brackets open. -/
def CalmReading (n : Nesting) (t r : Text) (depth : Nat) : Prop :=
  ∃ l n', Reads lexeme n l n' r ∧ Text.texts l = t ∧ n'.outer.length = depth ∧
    ∀ p ∈ l, IsCalmLexeme p

theorem CalmReading.cons {n n' : Nesting} {k : Kind} {c : Char} {x t r : Text} {depth : Nat}
    (hfirst : lexeme n c (x ++ (t ++ r)) = some ⟨k, n', x.length⟩) (hk : IsCalmLexeme (k, c :: x))
    (h : CalmReading n' t r depth) : CalmReading n (c :: (x ++ t)) r depth := by
  obtain ⟨l, m, hreads, rfl, hdepth, hl⟩ := h
  exact ⟨_, m, .cons hfirst hreads, rfl, hdepth, List.forall_mem_cons.mpr ⟨hk, hl⟩⟩

theorem isCalmChar_of_isSheetSpace {c : Char} (h : isSheetSpace c = true) :
    isCalmChar c = true := by
  simp [isCalmChar, Text.isBlank_of_isSheetSpace h]

/-- Behind a stretch of calm characters other than spaces no word of them goes on. -/
theorem endsCalm_of_isCalm {d d' : Nat} {c : Char} {t : Text} (h : IsCalm d (c :: t) d')
    (hc : (isCalmChar c && !isSheetSpace c) = false) (r : Text) : EndsCalm (c :: t ++ r) := by
  cases h with
  | char hcalm _ =>
    rw [hcalm, Bool.true_and, Bool.not_eq_false'] at hc
    exact Or.inl (endsWord_cons (endsPlain_of_isSheetSpace hc) _)
  | slash _ => exact Or.inr ⟨' ', _, rfl, by decide⟩
  | opening _ => exact Or.inl (endsWord_cons (by decide) _)
  | closing _ => exact Or.inl (endsWord_cons (by decide) _)

theorem exists_leave? {n : Nesting} {depth : Nat} (hn : n.outer.length = depth + 1) :
    ∃ n', n.leave? = some n' := by
  have hlength := n.sameBrackets_settle.length
  unfold Nesting.leave?
  split
  next houter =>
    rw [houter, hn] at hlength
    cases hlength
  · exact ⟨_, rfl⟩

/-- A calm text is read through, wherever it stands, if it ends with a bracket or no word goes on
behind it. -/
theorem exists_reads_of_isCalm {d d' : Nat} {t r : Text} (h : IsCalm d t d') {n : Nesting}
    (hn : n.outer.length = d) (hlast : ∀ c ∈ t.getLast?, isSheetSpace c = false)
    (hr : t.getLast? = some ')' ∨ EndsCalm r) : CalmReading n t r d' := by
  induction hlength : t.length using Nat.strongRecOn generalizing d n t with
  | ind k ih =>
    -- what is left behind the first lexeme ends as the text does
    have hrest : ∀ {c : Char} {x s : Text} {d₁ : Nat} {n₁ : Nesting}, t = c :: (x ++ s) →
        IsCalm d₁ s d' → n₁.outer.length = d₁ → CalmReading n₁ s r d' := by
      rintro c x s d₁ n₁ rfl hs hn₁
      by_cases hnil : s = []
      · subst hnil
        cases hs
        exact ⟨[], n₁, .nil n₁ r, rfl, hn₁, by simp⟩
      · have hend : (c :: (x ++ s)).getLast? = s.getLast? := by
          rw [← List.cons_append, List.getLast?_append, List.getLast?_eq_some_getLast hnil]
          rfl
        rw [hend] at hlast hr
        refine ih _ ?_ hs hn₁ hlast hr rfl
        simp only [List.length_cons, List.length_append] at hlength
        omega
    cases h with
    | nil => exact ⟨[], n, .nil n r, rfl, hn, by simp⟩
    | @char _ _ c t hc ht =>
      cases hspace : isSheetSpace c with
      | true =>
        obtain ⟨x, s, rfl, hx, hs⟩ := exists_run_append isSheetSpace t
        have hends : ∀ a ∈ (s ++ r).head?, isSheetSpace a = false := by
          cases s with
          | nil =>
            have hall : ∀ a ∈ c :: x, isSheetSpace a = true := List.forall_mem_cons.mpr ⟨hspace, hx⟩
            have hmem := List.getLast_mem (List.cons_ne_nil c x)
            have hfalse := hlast ((c :: x).getLast (List.cons_ne_nil c x))
              (by rw [List.append_nil, List.getLast?_eq_some_getLast]; rfl)
            rw [hall _ hmem] at hfalse
            cases hfalse
          | cons a s => exact hs
        have hfirst := lexeme_space n hspace (x ++ (s ++ r))
        rw [takeWhile_append_eq_left hx hends] at hfirst
        refine .cons hfirst (Or.inl ⟨rfl, List.forall_mem_cons.mpr ⟨hspace, hx⟩⟩) (hrest rfl
          (ht.of_append fun a ha => isCalmChar_of_isSheetSpace (hx a ha)) ?_)
        rw [(leadsTo_of_lexeme hfirst).length_outer, hn]
        rfl
      | false =>
        obtain ⟨w, s, rfl, hw, hs⟩ :=
          exists_run_append (fun a => isCalmChar a && !isSheetSpace a) t
        have hcalm : ∀ a ∈ w, isCalmChar a = true := fun a ha =>
          (Bool.and_eq_true_iff.mp (hw a ha)).1
        have hends : EndsCalm (s ++ r) := by
          cases s with
          | nil =>
            refine hr.resolve_left fun hbracket => ?_
            rw [List.append_nil] at hbracket
            have hall : ∀ a ∈ c :: w, isCalmChar a = true := List.forall_mem_cons.mpr ⟨hc, hcalm⟩
            exact absurd (hall _ (List.mem_of_getLast? hbracket)) (by decide)
          | cons a s => exact endsCalm_of_isCalm (ht.of_append hcalm) (hs a rfl) r
        obtain ⟨word, more, hmore, hfirst⟩ := lexeme_of_calm hc hspace hcalm hends n
        -- the word may be shorter than the stretch
        obtain ⟨x, y, rfl, rfl⟩ : ∃ x y, w = x ++ y ∧ more = x.length :=
          ⟨w.take more, w.drop more, (List.take_append_drop _ _).symm,
            by rw [List.length_take, Nat.min_eq_left hmore]⟩
        rw [List.append_assoc] at ht hrest ⊢
        rw [List.append_assoc, ← List.append_assoc y] at hfirst
        refine .cons hfirst (Or.inr (Or.inl rfl)) (hrest rfl
          (ht.of_append fun a ha => hcalm a (List.mem_append_left _ ha)) ?_)
        rw [(leadsTo_of_lexeme hfirst).length_outer, hn]
        rfl
    | @slash _ _ t ht =>
      obtain ⟨word, hfirst⟩ := lexeme_slash_space n (t ++ r)
      refine .cons (x := []) hfirst (Or.inr (Or.inl rfl)) (hrest (x := []) rfl ht ?_)
      rw [(leadsTo_of_lexeme hfirst).length_outer, hn]
      rfl
    | @opening _ _ t ht =>
      have hfirst : lexeme n '(' (t ++ r) = some ⟨.opening, n.enterRound, 0⟩ := rfl
      refine .cons (x := []) hfirst (Or.inr (Or.inr (Or.inl rfl))) (hrest (x := []) rfl ht ?_)
      rw [(leadsTo_of_lexeme hfirst).length_outer, hn]
      rfl
    | @closing depth _ t ht =>
      obtain ⟨n', hleave⟩ := exists_leave? hn
      have hfirst : lexeme n ')' (t ++ r) = some ⟨.closing, n', 0⟩ := by
        unfold lexeme
        simp [isSheetSpace, hleave]
      refine .cons (x := []) hfirst (Or.inr (Or.inr (Or.inr rfl))) (hrest (x := []) rfl ht ?_)
      rw [(leadsTo_of_lexeme hfirst).length_outer, hn]
      rfl

end LeadingTrim.Sheet

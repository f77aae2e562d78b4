/-
# Blank characters

Two notions of white space. `isBlank` is Unicode's White_Space property, used wherever the value
of a declaration is taken apart. `isSheetSpace` is the ASCII set that separates the tokens of a
style sheet. What is white space there is blank (`isBlank_of_isSheetSpace`).
-/

import LeadingTrim.Text.Basic

namespace LeadingTrim.Text

/-- Unicode's White_Space property. -/
def isBlank (c : Char) : Bool :=
  let n := c.toNat
  (9 ≤ n && n ≤ 13) || n == 0x20 || n == 0x85 || n == 0xA0 || n == 0x1680
    || (0x2000 ≤ n && n ≤ 0x200A) || n == 0x2028 || n == 0x2029 || n == 0x202F
    || n == 0x205F || n == 0x3000

/-- The white space of a style sheet: the space and U+0009 to U+000D. -/
def isSheetSpace (c : Char) : Bool :=
  c == ' ' || (9 ≤ c.toNat && c.toNat ≤ 13)

/-- The text from its first character that is not blank. -/
def trimStart (t : Text) : Text := t.dropWhile isBlank

/-- The text up to its last character that is not blank. -/
def trimEnd : Text → Text
  | [] => []
  | c :: rest => if (c :: rest).all isBlank then [] else c :: trimEnd rest

/-- The text without blanks at either end. -/
def trim (t : Text) : Text := trimEnd (trimStart t)

/-- The runs of characters that are not blank. -/
def words : Text → List Text
  | [] => []
  | c :: rest =>
    if isBlank c then words rest
    else match rest with
      | [] => [[c]]
      | d :: _ =>
        if isBlank d then [c] :: words rest
        else match words rest with
          | [] => [[c]]
          | word :: more => (c :: word) :: more

/-! ## What the two notions contain -/

theorem isBlank_of_isSheetSpace {c : Char} (h : isSheetSpace c = true) : isBlank c = true := by
  simp only [isSheetSpace, isBlank, Bool.or_eq_true, Bool.and_eq_true, beq_iff_eq,
    decide_eq_true_eq] at h ⊢
  rcases h with rfl | h
  · decide
  · simp [h]

/-! ## Trimming -/

@[simp] theorem trimEnd_nil : trimEnd [] = [] := rfl

theorem trimEnd_cons (c : Char) (t : Text) :
    trimEnd (c :: t) = if (c :: t).all isBlank then [] else c :: trimEnd t := rfl

theorem trimEnd_eq_nil_iff {t : Text} : trimEnd t = [] ↔ t.all isBlank = true := by
  cases t with
  | nil => simp
  | cons c t => rw [trimEnd_cons]; split <;> simp_all

/-- Trimming the end takes a run of blanks away and nothing else. -/
theorem exists_trimEnd_append (t : Text) :
    ∃ tail, t = trimEnd t ++ tail ∧ tail.all isBlank = true := by
  induction t with
  | nil => exact ⟨[], rfl, rfl⟩
  | cons c t ih =>
    rw [trimEnd_cons]
    split
    · exact ⟨c :: t, rfl, by assumption⟩
    · obtain ⟨tail, h, hb⟩ := ih
      exact ⟨tail, by rw [List.cons_append, ← h], hb⟩

/-- Trimming the start takes a run of blanks away and nothing else. -/
theorem takeWhile_append_trimStart (t : Text) : t.takeWhile isBlank ++ trimStart t = t :=
  List.takeWhile_append_dropWhile

/-- Blanks in front do not matter for the trimmed text. -/
theorem trim_append_of_isBlank {gap : Text} (hgap : ∀ c ∈ gap, isBlank c = true) (t : Text) :
    trim (gap ++ t) = trim t := by
  rw [trim, trimStart, List.dropWhile_append_of_pos hgap, ← trimStart, ← trim]

/-- Where something is left of the second part, the end of the whole is trimmed there. -/
theorem trimEnd_append {t : Text} (ht : trimEnd t ≠ []) (s : Text) :
    trimEnd (s ++ t) = s ++ trimEnd t := by
  induction s with
  | nil => rfl
  | cons c s ih =>
    have hrest : (s ++ t).all isBlank = false := by
      rw [List.all_append, Bool.eq_false_iff.mpr (mt trimEnd_eq_nil_iff.mpr ht), Bool.and_false]
    rw [List.cons_append, trimEnd_cons, List.all_cons, hrest, Bool.and_false,
      if_neg Bool.false_ne_true, ih]
    rfl

/-- A text that does not end with a blank is what is left of it with blanks behind it. -/
theorem trimEnd_append_blanks {t gap : Text} (ht : ∀ c ∈ t.getLast?, isBlank c = false)
    (hgap : ∀ c ∈ gap, isBlank c = true) : trimEnd (t ++ gap) = t := by
  induction t with
  | nil => exact trimEnd_eq_nil_iff.mpr (List.all_eq_true.mpr hgap)
  | cons c t ih =>
    have hink : (c :: t ++ gap).all isBlank = false := by
      refine List.all_eq_false.mpr ⟨(c :: t).getLast (List.cons_ne_nil c t), ?_, ?_⟩
      · exact List.mem_append_left _ (List.getLast_mem _)
      · rw [ht _ (List.getLast_mem_getLast? _), Bool.not_eq_true]
    have hrest : trimEnd (t ++ gap) = t := by
      refine ih fun d hd => ht d ?_
      rw [← List.singleton_append, List.getLast?_append, Option.mem_def.mp hd]
      rfl
    rw [List.cons_append] at hink ⊢
    rw [trimEnd_cons, hink, if_neg Bool.false_ne_true, hrest]

theorem trimEnd_trimEnd (t : Text) : trimEnd (trimEnd t) = trimEnd t := by
  induction t with
  | nil => rfl
  | cons c t ih =>
    rw [trimEnd_cons]
    split
    · rfl
    next hall =>
      -- what is left behind `c` is not blank, unless `c` itself is not
      have hleft : (c :: trimEnd t).all isBlank = (c :: t).all isBlank := by
        rw [List.all_cons, List.all_cons, Bool.eq_iff_iff, Bool.and_eq_true, Bool.and_eq_true,
          ← trimEnd_eq_nil_iff, ih, trimEnd_eq_nil_iff]
      rw [trimEnd_cons, hleft, if_neg hall, ih]

/-- What is left does not end with a blank. -/
theorem isBlank_of_mem_getLast?_trimEnd {t : Text} {c : Char} (hc : c ∈ (trimEnd t).getLast?) :
    isBlank c = false := by
  induction t with
  | nil => cases hc
  | cons d t ih =>
    rw [trimEnd_cons] at hc
    split at hc
    · cases hc
    next hall =>
      cases ht : trimEnd t with
      | nil =>
        rw [ht, List.getLast?_singleton, Option.mem_some_iff] at hc
        subst hc
        rw [trimEnd_eq_nil_iff] at ht
        simpa [ht] using hall
      | cons e t' =>
        rw [ht, List.getLast?_cons_cons, ← ht] at hc
        exact ih hc

/-- It does not matter which end is trimmed first. -/
theorem trimStart_trimEnd (t : Text) : trimStart (trimEnd t) = trimEnd (trimStart t) := by
  induction t with
  | nil => rfl
  | cons c t ih =>
    cases hc : isBlank c with
    | false => simp [trimEnd_cons, trimStart, hc]
    | true =>
      have hskip : trimStart (c :: t) = trimStart t := List.dropWhile_cons_of_pos hc
      rw [hskip, ← ih, trimEnd_cons]
      split
      next hall =>
        have hnil : trimEnd t = [] := by
          rw [List.all_cons, hc, Bool.true_and] at hall
          exact trimEnd_eq_nil_iff.mpr hall
        rw [hnil]
      · exact List.dropWhile_cons_of_pos hc

theorem trim_trimEnd (t : Text) : trim (trimEnd t) = trim t := by
  rw [trim, trimStart_trimEnd, trimEnd_trimEnd, trim]

end LeadingTrim.Text

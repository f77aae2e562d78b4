/-
# Numerals

A numeral is a number as it is written by hand: digits, perhaps with a fraction, and a sign only in
front of what is not zero. The text of a length is a numeral if the number is finite
(`isNumeral_of_isFinite`) and a word if it is not (`lengthText_of_not_isFinite`), and with such a
word no text begins that begins with a numeral (`isFinite_of_text_append`).
-/

import LeadingTrim.Proofs.Decimal.Finite

namespace LeadingTrim.Decimal

/-- A plain decimal. -/
structure Numeral where
  /-- Whether it has a sign. -/
  negative : Bool
  /-- The digits before the decimal point. -/
  whole : Text
  /-- The digits behind the decimal point; without any there is no point. -/
  fraction : Text
  whole_ne_nil : whole ≠ []
  isDigit : ∀ c ∈ whole ++ fraction, c.isDigit = true
  ne_zero : negative = true → ∃ c ∈ whole ++ fraction, c ≠ '0'

namespace Numeral

/-- The text without the sign. -/
def magnitude (n : Numeral) : Text :=
  n.whole ++ if n.fraction.isEmpty then [] else '.' :: n.fraction

/-- The text. -/
def text (n : Numeral) : Text := (if n.negative then ['-'] else []) ++ n.magnitude

end Numeral

/-- The text is a numeral. -/
def IsNumeral (t : Text) : Prop := ∃ n : Numeral, t = n.text

/-- The text is the word for an infinity. -/
def IsInfinity (t : Text) : Prop := t = "inf".toList ∨ t = "-inf".toList

/-! ## What is written -/

/-- The digits of a number other than zero are written as a numeral, with or without a sign. If it
has a fraction, that ends as they do, and they and the place of their point bound the whole part. -/
theorem exists_numeral_writePositional {d : Digits} (hdigit : ∀ c ∈ d.digits, c.isDigit = true)
    (hne : ∃ c ∈ d.digits, c ≠ '0') (negative : Bool) :
    ∃ n : Numeral, n.negative = negative ∧ Format.plain.writePositional d = n.magnitude ∧
      (n.fraction ≠ [] → n.whole.length ≤ d.digits.length ∧ (n.whole.length : Int) ≤ max 1 d.point ∧
        n.fraction.getLast? = d.digits.getLast?) := by
  have hzeros : ∀ n, ∀ c ∈ List.replicate n '0', c.isDigit = true := by
    intro n c hc
    rw [List.eq_of_mem_replicate hc]
    decide
  have hnil : d.digits ≠ [] := by
    obtain ⟨c, hc, -⟩ := hne
    exact List.ne_nil_of_mem hc
  have hone : 1 ≤ d.digits.length := List.length_pos_iff.mpr hnil
  obtain ⟨digit, hmem, hdigitne⟩ := hne
  unfold Format.writePositional
  -- the digits stand behind zeros, behind the point, in front of zeros, or around the point
  split
  next n _ =>
    refine ⟨⟨negative, ['0'], List.replicate (n + 1) '0' ++ d.digits, by decide, ?_, fun _ => ?_⟩,
      rfl, ?_, fun _ => ⟨hone, Int.le_max_left _ _, ?_⟩⟩
    · simp only [List.forall_mem_append]
      exact ⟨by decide, hzeros _, hdigit⟩
    · exact ⟨digit, by simp [hmem], hdigitne⟩
    · simp [Numeral.magnitude, List.replicate_succ]
    · rw [List.getLast?_append, List.getLast?_eq_some_getLast hnil, Option.some_or]
  · refine ⟨⟨negative, ['0'], d.digits, by decide, ?_, fun _ => ?_⟩, rfl, ?_,
      fun _ => ⟨hone, Int.le_max_left _ _, rfl⟩⟩
    · simp only [List.forall_mem_append]
      exact ⟨by decide, hdigit⟩
    · exact ⟨digit, by simp [hmem], hdigitne⟩
    · simp [Numeral.magnitude, hnil]
  next point hpoint hplace =>
    split
    · refine ⟨⟨negative, d.digits ++ List.replicate (point - d.digits.length) '0', [],
        by simp [hnil], ?_, fun _ => ?_⟩, rfl, ?_, fun h => absurd rfl h⟩
      · simp only [List.forall_mem_append]
        exact ⟨⟨hdigit, hzeros _⟩, by simp⟩
      · exact ⟨digit, by simp [hmem], hdigitne⟩
      · simp [Numeral.magnitude, Format.plain]
    next hlt =>
      have hpos : point ≠ 0 := by
        rintro rfl
        exact hpoint rfl
      refine ⟨⟨negative, d.digits.take point, d.digits.drop point, by simp [hnil, hpos], ?_,
        fun _ => ?_⟩, rfl, ?_, fun _ => ⟨List.length_take_le' _ _, ?_, ?_⟩⟩
      · rw [List.take_append_drop]
        exact hdigit
      · exact ⟨digit, by rw [List.take_append_drop]; exact hmem, hdigitne⟩
      · simp [Numeral.magnitude]
        omega
      · have htake := List.length_take_le point d.digits
        change ((d.digits.take point).length : Int) ≤ max 1 d.point
        rw [hplace, Int.ofNat_eq_natCast]
        omega
      · rw [List.getLast?_drop, if_neg hlt]

/-- A finite number is written as a numeral. -/
theorem isNumeral_of_isFinite {x : Float} (hx : x.isFinite = true) : IsNumeral (lengthText x) := by
  unfold lengthText
  split
  · exact ⟨⟨false, ['0'], [], by decide, by decide, by decide⟩, rfl⟩
  next hzero =>
    have hnonzero := Binary.isNonzero_ofFloat
      (Binary.mantissa_ofFloat_ne_zero (Bool.eq_false_iff.mpr hzero))
    obtain ⟨n, hsign, hn, -⟩ := exists_numeral_writePositional
      (isDigit_of_mem_shortest .up (Binary.ofFloat x)) (hnonzero.exists_mem_shortest .up)
      (signBit x)
    have hstatus : x.isNaN = false ∧ x.isInf = false := by
      simpa [hx] using (isFinite_eq_false_iff (x := x)).not
    refine ⟨n, ?_⟩
    simp only [Format.write, hstatus.1, hstatus.2, Format.writeMagnitude, Numeral.text, hsign,
      ← hn, hnonzero.pos.ne', Bool.false_eq_true, if_false]
    rfl

/-- A number that is not finite is written as a word. -/
theorem lengthText_of_not_isFinite {x : Float} (hx : x.isFinite = false) :
    lengthText x = if x.isNaN then "NaN".toList
      else if signBit x then "-inf".toList else "inf".toList := by
  have hzero : (x == 0.0) = false := by
    rw [Bool.eq_false_iff]
    intro hzero
    obtain ⟨s, hs⟩ := exists_unpack_of_beq_zero hzero
    change x.toModel.unpack.isFinite = false at hx
    rw [hs] at hx
    cases hx
  simp only [lengthText, hzero, Bool.false_eq_true, if_false, Format.write]
  split
  · rfl
  next hnan =>
    have hinf : x.isInf = true := (isFinite_eq_false_iff.mp hx).resolve_left hnan
    simp only [hinf, if_true]
    split <;> rfl

/-- A number is written as a numeral, or it is an infinity. -/
theorem isNumeral_or_isInfinity {x : Float} (hx : x.isNaN = false) :
    IsNumeral (lengthText x) ∨ IsInfinity (lengthText x) := by
  cases hfinite : x.isFinite with
  | true => exact Or.inl (isNumeral_of_isFinite hfinite)
  | false =>
    rw [lengthText_of_not_isFinite hfinite, if_neg (Bool.eq_false_iff.mp hx)]
    split
    · exact Or.inr (Or.inr rfl)
    · exact Or.inr (Or.inl rfl)

/-! ## What is no numeral -/

/-- Behind its sign a numeral begins with a digit. -/
theorem Numeral.exists_head?_eq (n : Numeral) (t : Text) :
    ∃ c, ((n.text ++ t).dropWhile (· == '-')).head? = some c ∧ c.isDigit = true := by
  obtain ⟨c, whole, hwhole⟩ := List.exists_cons_of_ne_nil n.whole_ne_nil
  have hdigit : c.isDigit = true := n.isDigit c (by rw [hwhole]; exact List.mem_cons_self)
  have hne : (c == '-') = false := by
    refine beq_eq_false_iff_ne.mpr ?_
    rintro rfl
    exact absurd hdigit (by decide)
  refine ⟨c, ?_, hdigit⟩
  rw [text, magnitude, hwhole]
  cases n.negative <;> simp [hne]

/-- Where a numeral stands in place of the text of a length, the length is a finite number. -/
theorem isFinite_of_text_append {n : Numeral} {x : Float} {s t : Text}
    (h : lengthText x ++ s = n.text ++ t) : x.isFinite = true := by
  by_contra hx
  obtain ⟨c, hhead, hdigit⟩ := n.exists_head?_eq t
  rw [← h] at hhead
  rw [lengthText_of_not_isFinite (Bool.eq_false_iff.mpr hx)] at hhead
  split at hhead
  · obtain rfl := Option.some.inj hhead
    exact absurd hdigit (by decide)
  · split at hhead
    · obtain rfl := Option.some.inj hhead
      exact absurd hdigit (by decide)
    · obtain rfl := Option.some.inj hhead
      exact absurd hdigit (by decide)

theorem Numeral.ne_e (n : Numeral) : ∀ c ∈ n.text, (c != 'e') = true := by
  have hdigits : ∀ c ∈ n.whole ++ n.fraction, (c != 'e') = true := by
    intro c hc
    refine bne_iff_ne.mpr ?_
    rintro rfl
    exact absurd (n.isDigit _ hc) (by decide)
  rw [List.forall_mem_append] at hdigits
  simp only [text, magnitude, List.forall_mem_append]
  refine ⟨by split <;> decide, hdigits.1, ?_⟩
  split
  · decide
  · exact List.forall_mem_cons.mpr ⟨by decide, hdigits.2⟩

/-- A numeral ends before the first `e` behind it. -/
theorem Numeral.eq_of_append_e {n n' : Numeral} {s t : Text}
    (h : n.text ++ 'e' :: s = n'.text ++ 'e' :: t) : s = t := by
  have hdrop : ∀ (n : Numeral) (s : Text),
      (n.text ++ 'e' :: s).dropWhile (· != 'e') = 'e' :: s := by
    intro n s
    rw [List.dropWhile_append_of_pos n.ne_e]
    rfl
  exact List.tail_eq_of_cons_eq ((hdrop n s).symm.trans (h ▸ hdrop n' t))

end LeadingTrim.Decimal

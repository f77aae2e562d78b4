/-
# Rounding keeps numbers finite

A number is rounded on its text, so that the hundredths are read from digits. There are not many of
them before a fraction (`cents?_lt`), which is why the hundredths are a number of moderate size, and
so is what they give when they are divided (`isFinite_roundToCents`). The size of a number is
followed by its exponent alone; the bounds leave room on purpose.
-/

import LeadingTrim.Proofs.Decimal.Numeral
import LeadingTrim.Proofs.Decimal.Sign

namespace LeadingTrim.Decimal

open Float.Model (UnpackedFloat totalExponent)
open Float.Model.Format (binary64)
open Float.Model.UnpackedFloat (Accuracy ExtendedMantissa Sign unpackMantissa)

/-! ## Hundredths -/

theorem digitValue_le {c : Char} (hc : c.isDigit = true) : digitValue c ≤ 9 := by
  have hle : c.val ≤ 57 := of_decide_eq_true (Bool.and_eq_true_iff.mp hc).2
  have hnat : c.toNat ≤ 57 := UInt32.le_iff_toNat_le.mp hle
  change c.toNat - 48 ≤ 9
  omega

theorem foldl_digitValue_lt {t : Text} (ht : ∀ c ∈ t, c.isDigit = true) (n : Nat) :
    t.foldl (fun n c => 10 * n + digitValue c) n < (n + 1) * 10 ^ t.length := by
  induction t generalizing n with
  | nil => simp
  | cons c t ih =>
    have hc := digitValue_le (ht c List.mem_cons_self)
    have hrest := ih (fun c hc => ht c (List.mem_cons_of_mem _ hc)) (10 * n + digitValue c)
    calc (c :: t).foldl (fun n c => 10 * n + digitValue c) n
        < (10 * n + digitValue c + 1) * 10 ^ t.length := hrest
      _ ≤ (n + 1) * 10 * 10 ^ t.length := Nat.mul_le_mul_right _ (by omega)
      _ = (n + 1) * 10 ^ (c :: t).length := by rw [List.length_cons, Nat.pow_succ]; ring

theorem natOfDigits_lt {t : Text} (ht : ∀ c ∈ t, c.isDigit = true) :
    natOfDigits t < 10 ^ t.length := by
  simpa [natOfDigits] using foldl_digitValue_lt ht 0

/-- A numeral is split at its point, if it has one. -/
theorem splitPoint_magnitude (n : Numeral) :
    splitPoint n.magnitude = if n.fraction.isEmpty then none else some (n.whole, n.fraction) := by
  have hne : ∀ c ∈ n.whole, (c != '.') = true := by
    intro c hc
    refine bne_iff_ne.mpr ?_
    rintro rfl
    exact absurd (n.isDigit _ (List.mem_append_left _ hc)) (by decide)
  unfold splitPoint Numeral.magnitude
  rw [List.dropWhile_append_of_pos hne, List.takeWhile_append_of_pos hne]
  cases n.fraction <;> simp

/-- The hundredths of a numeral are reckoned from its first three decimals. -/
theorem cents?_magnitude_eq_some_iff {n : Numeral} {cents : Nat} :
    cents? n.magnitude = some cents ↔ ∃ a b c rest, n.fraction = a :: b :: c :: rest ∧
      cents = natOfDigits n.whole * 100 + digitValue a * 10 + digitValue b +
        if '5' ≤ c then 1 else 0 := by
  rw [cents?, splitPoint_magnitude]
  constructor
  · intro h
    split at h
    next whole a b c rest heq =>
      split at heq
      · cases heq
      · obtain ⟨rfl, hfraction⟩ := Prod.mk.inj (Option.some.inj heq)
        exact ⟨a, b, c, rest, hfraction, (Option.some.inj h).symm⟩
    · cases h
  · rintro ⟨a, b, c, rest, hfraction, rfl⟩
    simp [hfraction]

theorem cents?_lt {n : Numeral} (hlength : n.fraction ≠ [] → n.whole.length ≤ 18) {cents : Nat}
    (h : cents? n.magnitude = some cents) : cents < 2 ^ 67 := by
  obtain ⟨a, b, c, rest, hfraction, rfl⟩ := cents?_magnitude_eq_some_iff.mp h
  have hdigits := List.forall_mem_append.mp n.isDigit
  have hlt := natOfDigits_lt hdigits.1
  have ha := digitValue_le (hdigits.2 a (by simp [hfraction]))
  have hb := digitValue_le (hdigits.2 b (by simp [hfraction]))
  -- hundredths are read only where there is a fraction, and then few digits are before it
  have hpow : 10 ^ n.whole.length ≤ 10 ^ 18 :=
    Nat.pow_le_pow_right (by decide) (hlength (by simp [hfraction]))
  split <;> omega

/-! ## Exponents -/

theorem shiftRight_mantissa_le (em : ExtendedMantissa) (n : Nat) :
    (em >>> n).mantissa ≤ em.mantissa := by
  induction n with
  | zero => exact Nat.le_refl _
  | succ n ih => exact Nat.le_trans (Nat.div_le_self _ 2) ih

theorem roundedMantissa_le (em : ExtendedMantissa) : em.roundedMantissa ≤ em.mantissa + 1 := by
  unfold ExtendedMantissa.roundedMantissa Accuracy.roundToNearestEven
  split <;> omega

theorem ofMantissaAndAccuracy_mantissa (m : Nat) (a : Accuracy) :
    (ExtendedMantissa.ofMantissaAndAccuracy m a).mantissa = m := by
  unfold ExtendedMantissa.ofMantissaAndAccuracy
  split <;> rfl

theorem log2_le_of_lt {m k : Nat} (h : m < 2 ^ k) : m.log2 ≤ k := by
  by_cases hm : m = 0
  · simp [hm]
  · exact Nat.le_of_lt ((Nat.log2_lt hm).mpr h)

theorem targetExponent_le {m k : Nat} (h : m < 2 ^ k) (e : Int) :
    binary64.targetExponent (totalExponent m e) ≤ max (k + 1 + e - 53) (-1074) := by
  have hlog := log2_le_of_lt h
  change max (_ - 53) (-1074) ≤ _
  unfold totalExponent
  omega

/-- The exponent grows by the bits that are cut off, once when it is shifted and once for a carry.
-/
theorem exponentLe_roundWithAccuracy {m k : Nat} (h : m + 1 < 2 ^ k) (s : Sign) (e : Int)
    (a : Accuracy) :
    ExponentLe (max e (-1074) + 2 * k) (UnpackedFloat.roundWithAccuracy binary64 s m e a) := by
  unfold UnpackedFloat.roundWithAccuracy UnpackedFloat.shiftToTargetExponent
    UnpackedFloat.shiftToExponent
  dsimp only
  split
  · exact .zero _
  · have hfirst := targetExponent_le (Nat.lt_of_succ_lt h) e
    generalize binary64.targetExponent (totalExponent m e) = t at *
    -- what is shifted to the right and rounded is at most one more than it was
    have hrounded : (ExtendedMantissa.ofMantissaAndAccuracy m a >>> (t - e).toNat).roundedMantissa <
        2 ^ k := by
      have hle := roundedMantissa_le (ExtendedMantissa.ofMantissaAndAccuracy m a >>> (t - e).toNat)
      have hshift := shiftRight_mantissa_le (ExtendedMantissa.ofMantissaAndAccuracy m a)
        (t - e).toNat
      rw [ofMantissaAndAccuracy_mantissa] at hshift
      omega
    have hsecond := targetExponent_le hrounded (e + (t - e).toNat)
    exact .finite _ _ _ (by omega)

/-! ## Operations -/

theorem shiftLeft_lt {m k i j : Nat} (hm : m < 2 ^ k) (hi : i ≤ j) :
    m <<< i + 1 < 2 ^ (k + j + 1) := by
  have hmul : (m + 1) * 2 ^ i ≤ 2 ^ k * 2 ^ j :=
    Nat.mul_le_mul hm (Nat.pow_le_pow_right (by decide) hi)
  have hpos := Nat.two_pow_pos i
  rw [Nat.add_mul] at hmul
  rw [Nat.shiftLeft_eq, Nat.pow_succ, Nat.pow_add]
  omega

theorem exponentLe_normalize {n k : Nat} (h : n < 2 ^ k) (s : Sign) :
    ExponentLe (2 * (k + 54 : Nat)) (UnpackedFloat.normalize binary64 n 0 s) := by
  unfold UnpackedFloat.normalize
  split
  next hneg => exact absurd (Int.compare_eq_lt.mp hneg) (by omega)
  · exact .zero _
  · unfold UnpackedFloat.round UnpackedFloat.decreaseExponent
    rw [Int.toNat_natCast]
    dsimp only
    have ht : 0 - binary64.targetExponent (totalExponent n 0) ≤ 53 := by
      change 0 - max (_ - 53) (-1074) ≤ 53
      unfold totalExponent
      omega
    generalize binary64.targetExponent (totalExponent n 0) = t at *
    exact (exponentLe_roundWithAccuracy (shiftLeft_lt (j := 53) h (by omega)) _ _ _).mono (by omega)

theorem exponentLe_mul {m m' k : Nat} (h : m * m' + 1 < 2 ^ k) (s s' : Sign) (e e' : Int)
    {hm : 0 < m} {hm' : 0 < m'} :
    ExponentLe (max (e + e') (-1074) + 2 * k)
      (UnpackedFloat.mul binary64 (.finite s m e hm) (.finite s' m' e' hm')) :=
  exponentLe_roundWithAccuracy h _ _ _

theorem exponentLe_div {m m' : Nat} (h : m < 2 ^ 53) (h' : m' < 2 ^ 53) (s s' : Sign) (e e' : Int)
    {hm : 0 < m} {hm' : 0 < m'} :
    ExponentLe (max (e - e') (-1074) + 320)
      (UnpackedFloat.div binary64 (.finite s m e hm) (.finite s' m' e' hm')) := by
  dsimp only [UnpackedFloat.div, UnpackedFloat.divCore]
  have ht : e - e' - binary64.targetExponent (totalExponent m e - totalExponent m' e') ≤ 106 := by
    have hlog := log2_le_of_lt h'
    change e - e' - max (_ - 53) (-1074) ≤ 106
    unfold totalExponent
    omega
  generalize binary64.targetExponent _ = t at *
  have hshift := shiftLeft_lt (i := (e - e' - min (e - e') t).toNat) (j := 106) h (by omega)
  have hquot : m <<< (e - e' - min (e - e') t).toNat / m' + 1 < 2 ^ 160 :=
    Nat.lt_of_le_of_lt (Nat.succ_le_succ (Nat.div_le_self _ _)) hshift
  exact (exponentLe_roundWithAccuracy hquot _ _ _).mono (by omega)

theorem unpack_one :
    (1.0 : Float).toModel.unpack = .finite .positive (2 ^ 52) (-52) (Nat.two_pow_pos 52) := rfl

theorem unpack_hundred :
    (100.0 : Float).toModel.unpack = .finite .positive 7036874417766400 (-46) (by decide) := rfl

theorem exponentLe_mul_one {x : Float} (hx : ExponentLe 250 x.toModel.unpack) :
    ExponentLe 500 (x * 1.0).toModel.unpack := by
  refine exponentLe_pack (u := .mul binary64 x.toModel.unpack (1.0 : Float).toModel.unpack) ?_
    (by decide) (by decide)
  rw [unpack_one]
  obtain ⟨s, hu⟩ | ⟨s, m, e, hm, hu, hle, hlt⟩ := hx.exists_unpack
  · rw [hu]
    exact .zero _
  · rw [hu]
    exact (exponentLe_mul (k := 106) (by omega) _ _ _ _).mono (by omega)

theorem isFinite_div_hundred {x : Float} (hx : ExponentLe 500 x.toModel.unpack) :
    (x / 100.0).isFinite = true := by
  have hdiv : ExponentLe 971 (.div binary64 x.toModel.unpack (100.0 : Float).toModel.unpack) := by
    rw [unpack_hundred]
    obtain ⟨s, hu⟩ | ⟨s, m, e, hm, hu, hle, hlt⟩ := hx.exists_unpack
    · rw [hu]
      exact .zero _
    · rw [hu]
      exact (exponentLe_div hlt (by decide) _ _ _ _).mono (by omega)
  exact (exponentLe_pack hdiv (by decide) (by decide)).isFinite

theorem exponentLe_ofNat {n : Nat} (hn : n < 2 ^ 67) :
    ExponentLe 500 (Float.ofNat n).toModel.unpack := by
  change ExponentLe 500 (Float.ofScientific n false 0).toModel.unpack
  unfold Float.ofScientific
  split
  -- a number of at most fifty-three bits is converted and multiplied by one
  · have hnat : n.toUInt64.toNat < 2 ^ 64 := n.toUInt64.toNat_lt
    exact exponentLe_mul_one
      (exponentLe_pack ((exponentLe_normalize hnat _).mono (by decide)) (by decide) (by decide))
  · refine exponentLe_pack (u := .ofScientific binary64 n 0) ?_ (by decide) (by decide)
    unfold UnpackedFloat.ofScientific
    split
    · exact .zero _
    · split
      next hhigh => exact absurd hhigh (by decide)
      · split
        next hlow => exact absurd hlow (by omega)
        · rw [if_pos (Int.le_refl 0)]
          refine (exponentLe_mul (k := 121) ?_ _ _ _ _).mono (by decide)
          rw [Int.toNat_zero, Nat.pow_zero, Nat.mul_one]
          exact shiftLeft_lt (i := 53) (j := 53) hn (Nat.le_refl _)

/-! ## Rounding -/

theorem isFinite_withSign {x : Float} (hx : x.isFinite = true) (y : Float) :
    (withSign x y).isFinite = true := by
  unfold withSign
  split
  · exact isFinite_neg hx
  · exact hx

theorem cents?_write_lt {x : Float} (hsign : signBit x = false) {cents : Nat}
    (h : cents? (Format.plain.write x) = some cents) : cents < 2 ^ 67 := by
  simp only [Format.write, hsign, Bool.false_eq_true, if_false, List.nil_append] at h
  split at h
  · cases h
  · split at h
    · cases h
    · unfold Format.writeMagnitude at h
      dsimp only at h
      split at h
      · cases h
      next hmantissa =>
        have hnonzero := Binary.isNonzero_ofFloat hmantissa
        obtain ⟨n, -, hn, hlength⟩ := exists_numeral_writePositional
          (isDigit_of_mem_shortest .up (Binary.ofFloat x)) (hnonzero.exists_mem_shortest .up) false
        refine cents?_lt (n := n) (fun hne => (hlength hne).1.trans ?_) (hn ▸ h)
        exact hnonzero.length_shortest_le .up

/-- Rounding makes no infinity. -/
theorem isFinite_roundToCents (x : Float) : (roundToCents x).isFinite = x.isFinite := by
  unfold roundToCents
  split
  · rfl
  next hguard =>
    have hx : x.isFinite = true := by
      cases hfinite : x.isFinite with
      | true => rfl
      | false => exact absurd (by rw [hfinite]; rfl) hguard
    split
    · rfl
    next cents hcents =>
      have hlt := cents?_write_lt (signBit_abs x) hcents
      rw [hx]
      exact isFinite_withSign (isFinite_div_hundred (exponentLe_ofNat hlt)) x

end LeadingTrim.Decimal

/-
# A half is rounded away from zero

A number below `1e15` has at most sixteen digits before its decimal point (`exists_numeral_write`),
so that no step of the reckoning leaves the range of 64-bit words (`checkedCents?_eq`). The third
decimal alone tells whether the digits from there on are a half or more (`floor_size`). Together:
what is rounded is the decimal text, exactly, a half away from zero (`roundToCents_outcome`).
-/

import LeadingTrim.Proofs.Decimal.Rounding

namespace LeadingTrim.Decimal

open Float.Model (UnpackedFloat)

/-! ## The number that digits stand for -/

theorem foldl_digitValue_eq (t : Text) (n : Nat) :
    t.foldl (fun n c => 10 * n + digitValue c) n = n * 10 ^ t.length + natOfDigits t := by
  induction t generalizing n with
  | nil => simp [natOfDigits]
  | cons c t ih =>
    rw [natOfDigits, List.foldl_cons, List.foldl_cons, ih, ih (10 * 0 + digitValue c)]
    simp only [List.length_cons, Nat.pow_succ]
    ring

theorem natOfDigits_append (s t : Text) :
    natOfDigits (s ++ t) = natOfDigits s * 10 ^ t.length + natOfDigits t := by
  rw [natOfDigits, List.foldl_append, foldl_digitValue_eq]
  rfl

theorem natOfDigits_cons (c : Char) (t : Text) :
    natOfDigits (c :: t) = digitValue c * 10 ^ t.length + natOfDigits t := by
  rw [natOfDigits, List.foldl_cons, foldl_digitValue_eq, Nat.mul_zero, Nat.zero_add]

theorem five_le_iff {c : Char} : '5' ≤ c ↔ 5 ≤ digitValue c := by
  change '5'.val ≤ c.val ↔ 5 ≤ c.val.toNat - 48
  rw [UInt32.le_iff_toNat_le]
  change 53 ≤ c.val.toNat ↔ _
  omega

theorem eq_zero_of_digitValue {c : Char} (hc : c.isDigit = true) (h : digitValue c = 0) :
    c = '0' := by
  have hle : '0'.val ≤ c.val := of_decide_eq_true (Bool.and_eq_true_iff.mp hc).1
  rw [UInt32.le_iff_toNat_le] at hle
  change 48 ≤ c.val.toNat at hle
  change c.val.toNat - 48 = 0 at h
  refine Char.ext (UInt32.toNat_inj.mp ?_)
  change c.val.toNat = 48
  omega

namespace Numeral

/-- The number that a decimal stands for, without its sign. -/
def size (n : Numeral) : ℚ := natOfDigits (n.whole ++ n.fraction) / 10 ^ n.fraction.length

variable {n : Numeral} {a b c : Char} {rest : Text}

/-- The third decimal tells whether a half or more is left behind the second. -/
theorem floor_size (hfraction : n.fraction = a :: b :: c :: rest) :
    ⌊100 * n.size + 1 / 2⌋₊ = natOfDigits n.whole * 100 + digitValue a * 10 + digitValue b +
      if '5' ≤ c then 1 else 0 := by
  have hrest : natOfDigits rest < 10 ^ rest.length := by
    refine natOfDigits_lt fun d hd => n.isDigit d (List.mem_append_right _ ?_)
    rw [hfraction]
    exact List.mem_cons_of_mem _ (List.mem_cons_of_mem _ (List.mem_cons_of_mem _ hd))
  -- in units of the last decimal the floor is a division of natural numbers
  have hsize : 100 * n.size + 1 / 2 =
      ((100 * natOfDigits (n.whole ++ n.fraction) + 500 * 10 ^ rest.length : ℕ) : ℚ) /
        ((1000 * 10 ^ rest.length : ℕ) : ℚ) := by
    have hpow : (10 : ℚ) ^ n.fraction.length = 1000 * 10 ^ rest.length := by
      rw [hfraction]
      simp only [List.length_cons]
      ring
    have hne : (10 : ℚ) ^ rest.length ≠ 0 := by positivity
    rw [size, hpow]
    push_cast
    field_simp
    ring
  have hdigits : natOfDigits (n.whole ++ n.fraction) =
      (natOfDigits n.whole * 1000 + digitValue a * 100 + digitValue b * 10 + digitValue c) *
        10 ^ rest.length + natOfDigits rest := by
    rw [natOfDigits_append, hfraction, natOfDigits_cons, natOfDigits_cons, natOfDigits_cons]
    simp only [List.length_cons]
    ring
  have hnine : digitValue c ≤ 9 := by
    refine digitValue_le (n.isDigit c (List.mem_append_right _ ?_))
    simp [hfraction]
  rw [hsize, Nat.floor_div_eq_div, hdigits]
  generalize natOfDigits n.whole = units at *
  generalize natOfDigits rest = behind at *
  generalize 10 ^ rest.length = unit at *
  have hlow := Nat.zero_le (digitValue c * unit)
  have hhigh := Nat.mul_le_mul_right unit hnine
  simp only [five_le_iff]
  -- behind a third decimal of four not even nines make up the half
  split
  next hfive =>
    have hmul := Nat.mul_le_mul_right unit hfive
    exact Nat.div_eq_of_lt_le (by linarith) (by linarith)
  next hfive =>
    have hmul := Nat.mul_le_mul_right unit (Nat.le_of_lt_succ (Nat.lt_of_not_le hfive))
    exact Nat.div_eq_of_lt_le (by linarith) (by linarith)

/-- A decimal that ends in no zero has at most two decimals if its hundredths are a whole number. -/
theorem length_fraction_le_two_iff (hlast : ∀ c ∈ n.fraction.getLast?, c ≠ '0') :
    n.fraction.length ≤ 2 ↔ ∃ k : ℕ, 100 * n.size = k := by
  constructor
  · intro hle
    refine ⟨natOfDigits (n.whole ++ n.fraction) * 10 ^ (2 - n.fraction.length), ?_⟩
    have hpow : (10 : ℚ) ^ (2 - n.fraction.length) * 10 ^ n.fraction.length = 100 := by
      rw [← pow_add, Nat.sub_add_cancel hle]
      norm_num
    have hne : (10 : ℚ) ^ n.fraction.length ≠ 0 := by positivity
    rw [size, ← hpow]
    push_cast
    field_simp
  · rintro ⟨k, hk⟩
    by_contra hlong
    have hne : n.fraction ≠ [] := by
      rintro hnil
      simp [hnil] at hlong
    -- with three decimals or more the last digit would be a multiple of ten
    obtain ⟨front, c, hfraction⟩ : ∃ front c, n.fraction = front ++ [c] :=
      ⟨_, _, (List.dropLast_append_getLast hne).symm⟩
    obtain ⟨j, hj⟩ : ∃ j, front.length = j + 2 := by
      rw [hfraction, List.length_append, List.length_singleton] at hlong
      exact ⟨front.length - 2, by omega⟩
    have hdigit : c.isDigit = true := n.isDigit c (by simp [hfraction])
    have hdigits : natOfDigits (n.whole ++ n.fraction) =
        natOfDigits (n.whole ++ front) * 10 + digitValue c := by
      rw [hfraction, ← List.append_assoc, natOfDigits_append]
      simp [natOfDigits]
    have hwhole : 100 * natOfDigits (n.whole ++ n.fraction) = 1000 * (10 ^ j * k) := by
      have hpow : (10 : ℚ) ^ n.fraction.length = 1000 * 10 ^ j := by
        rw [hfraction, List.length_append, hj, List.length_singleton]
        ring
      have hne : (10 : ℚ) ^ j ≠ 0 := by positivity
      rw [size, hpow] at hk
      field_simp at hk
      rw [← Nat.mul_assoc]
      exact_mod_cast hk
    have hzero : digitValue c = 0 := by
      have hnine := digitValue_le hdigit
      omega
    exact hlast c (by simp [hfraction]) (eq_zero_of_digitValue hdigit hzero)

/-! ## The steps of the reckoning -/

theorem word?_of_lt {m : Nat} (h : m < 10 ^ 19) : word? m = some m :=
  if_pos (Nat.lt_trans h (by decide))

theorem digit?_of_isDigit {c : Char} (hc : c.isDigit = true) : digit? c = some (digitValue c) :=
  if_pos (of_decide_eq_true (Bool.and_eq_true_iff.mp hc).1)

/-- With sixteen digits before the point no step leaves the range of words. -/
theorem checkedCents?_eq (hlength : n.whole.length ≤ 16)
    (hfraction : n.fraction = a :: b :: c :: rest) :
    checkedCents? n.whole n.fraction = some ⌊100 * n.size + 1 / 2⌋₊ := by
  have hdigits := List.forall_mem_append.mp n.isDigit
  have hunits : natOfDigits n.whole < 10 ^ 16 :=
    Nat.lt_of_lt_of_le (natOfDigits_lt hdigits.1) (Nat.pow_le_pow_right (by decide) hlength)
  have ha : a.isDigit = true := hdigits.2 a (by simp [hfraction])
  have hb : b.isDigit = true := hdigits.2 b (by simp [hfraction])
  have hale := digitValue_le ha
  have hble := digitValue_le hb
  rw [floor_size hfraction, hfraction]
  simp only [checkedCents?, List.getElem?_cons_zero, List.getElem?_cons_succ, Option.bind_eq_bind,
    Option.bind_some, digit?_of_isDigit ha, digit?_of_isDigit hb]
  -- each number on the way is below ten times the bound of the whole part
  rw [word?_of_lt (by omega), Option.bind_some, word?_of_lt (by omega), Option.bind_some,
    word?_of_lt (by omega), Option.bind_some, word?_of_lt (by omega), Option.bind_some,
    word?_of_lt (by omega), Option.bind_some]
  split
  · exact word?_of_lt (by omega)
  · rfl

end Numeral

/-! ## Numbers below the bound -/

theorem lt_iff_compare {x y : Float} :
    x < y ↔ x.toModel.unpack.compare y.toModel.unpack = some .lt :=
  decide_eq_true_iff.trans beq_iff_eq

theorem le_iff_compare {x y : Float} :
    x ≤ y ↔ (x.toModel.unpack.compare y.toModel.unpack).any (·.isLE) = true :=
  decide_eq_true_iff

theorem unpack_bound :
    (1e15 : Float).toModel.unpack = .finite .positive 8000000000000000 (-3) (by decide) := rfl

section Bound

variable {x : Float} {m : Nat} {e : Int} {hm : 0 < m}

theorem lt_bound_iff (h : x.toModel.unpack = .finite .positive m e hm) :
    x < 1e15 ↔ e < -3 ∨ e = -3 ∧ m < 8000000000000000 := by
  rw [lt_iff_compare, h, unpack_bound]
  simp only [UnpackedFloat.compare, Option.some.injEq, Ordering.then_eq_lt, Int.compare_eq_lt,
    Nat.compare_eq_lt, Int.compare_eq_eq]

theorem bound_le_iff (h : x.toModel.unpack = .finite .positive m e hm) :
    1e15 ≤ x ↔ -3 < e ∨ -3 = e ∧ 8000000000000000 ≤ m := by
  rw [le_iff_compare, h, unpack_bound]
  simp only [UnpackedFloat.compare, Option.any_some, Ordering.isLE_then_iff_or, Int.compare_eq_lt,
    Nat.isLE_compare, Int.compare_eq_eq]

/-- A finite number that is positive is zero, or it is unpacked with a positive sign. -/
theorem unpack_of_isPositive (hfinite : x.isFinite = true) (hx : IsPositive x) :
    x.toModel.unpack = .zero .positive ∨
      ∃ m e hm, x.toModel.unpack = .finite .positive m e hm ∧ m < 2 ^ 53 := by
  unfold IsPositive at hx
  obtain ⟨s, hu⟩ | ⟨s, m, e, hm, hu, -, hlt⟩ := (exponentLe_of_isFinite hfinite).exists_unpack
  · rw [hu] at hx
    exact Or.inl (hu.trans (congrArg _ hx))
  · rw [hu] at hx
    obtain rfl : s = .positive := hx
    exact Or.inr ⟨m, e, hm, hu, hlt⟩

theorem bound_le_iff_not_lt (hfinite : x.isFinite = true) (hx : IsPositive x) :
    1e15 ≤ x ↔ ¬ x < 1e15 := by
  obtain hu | ⟨m, e, hm, hu, -⟩ := unpack_of_isPositive hfinite hx
  · rw [le_iff_compare, lt_iff_compare, hu, unpack_bound]
    exact iff_of_false nofun (not_not_intro rfl)
  · rw [bound_le_iff hu, lt_bound_iff hu]
    omega

theorem Binary.magnitude_le {b : Binary} {k : Nat} (hk : 0 < k)
    (hlt : 4 * b.mantissa * (b.quarter 0).1 < (b.quarter 0).2 * 10 ^ k) : b.magnitude ≤ k := by
  have hden := (b.quarter_pos 0).2
  unfold Binary.magnitude
  dsimp only
  split
  · have hdiv : 4 * b.mantissa * (b.quarter 0).1 / (b.quarter 0).2 < 10 ^ k := by
      rwa [Nat.div_lt_iff_lt_mul hden, Nat.mul_comm (10 ^ k)]
    exact Int.ofNat_le.mpr ((Nat.length_toDigits_le_iff (by decide) hk).mpr hdiv)
  · simp only [Int.ofNat_eq_natCast]
    omega

/-- Below the bound there are at most fifteen digits before the decimal point. -/
theorem magnitude_le_of_lt_bound (hu : x.toModel.unpack = .finite .positive m e hm)
    (hlt : x < 1e15) (hm : m < 2 ^ 53) : (Binary.ofFloat x).magnitude ≤ 15 := by
  obtain ⟨hmantissa, hexponent⟩ := Binary.ofFloat_of_unpack hu
  rw [lt_bound_iff hu] at hlt
  obtain ⟨down, hdown⟩ : ∃ down : Nat, e - 2 = Int.ofNat 0 - Int.ofNat down :=
    ⟨(2 - e).toNat, by simp only [Int.ofNat_eq_natCast]; omega⟩
  have hquarter : (Binary.ofFloat x).quarter 0 = scaleBy 2 (e - 2) (1, 1) := by
    simp [Binary.quarter, scaleBy, hexponent]
  refine Binary.magnitude_le (k := 15) (by decide) ?_
  rw [hquarter, hmantissa]
  refine mul_lt_of_scaleBy (by decide) 0 down hdown (by decide) (by decide) ?_
  -- the bound is counted in eighths: either the last bit is worth less, or the mantissa is below it
  simp only [Int.ofNat_eq_natCast] at hdown
  rcases hlt with he | ⟨he, hlt⟩
  · have hpow : 2 ^ 6 ≤ 2 ^ down := Nat.pow_le_pow_right (by decide) (by omega)
    omega
  · have hpow : 2 ^ 5 ≤ 2 ^ down := Nat.pow_le_pow_right (by decide) (by omega)
    omega

end Bound

/-! ## The text of a number below the bound -/

theorem isFinite_abs {x : Float} (hx : x.isFinite = true) : x.abs.isFinite = true := by
  have hle := exponentLe_of_isFinite hx
  have habs : ExponentLe 971 x.toModel.unpack.abs := by
    generalize x.toModel.unpack = u at *
    cases hle with
    | zero s => exact .zero _
    | finite s m hm hle => exact .finite _ _ _ hle
  exact (exponentLe_pack habs (by decide) (by decide)).isFinite

/-- A finite number without a sign is written as its magnitude. -/
theorem write_eq_writeMagnitude (f : Format) {x : Float} (hfinite : x.isFinite = true)
    (hsign : signBit x = false) : f.write x = f.writeMagnitude x := by
  have hstatus : x.isNaN = false ∧ x.isInf = false := by
    simpa [hfinite] using (isFinite_eq_false_iff (x := x)).not
  simp only [Format.write, hstatus.1, hstatus.2, hsign, Bool.false_eq_true, if_false,
    List.nil_append]

/-- A number below the bound is written as a numeral that ends in no zero if it has a fraction, and
that has then at most sixteen digits before the point. -/
theorem exists_numeral_write {x : Float} (hfinite : x.isFinite = true) (hx : IsPositive x)
    (hlt : x < 1e15) :
    ∃ n : Numeral, n.negative = false ∧ Format.plain.write x = n.text ∧
      (n.fraction ≠ [] → n.whole.length ≤ 16) ∧ ∀ c ∈ n.fraction.getLast?, c ≠ '0' := by
  rw [write_eq_writeMagnitude _ hfinite (isPositive_iff.mp hx)]
  obtain hu | ⟨m, e, hm, hu, hbits⟩ := unpack_of_isPositive hfinite hx
  · have hzero : x = .ofModel (.pack (.zero .positive)) := by rw [← hu, ofModel_pack_unpack]
    refine ⟨⟨false, ['0'], [], by decide, by decide, by decide⟩, rfl, ?_, by simp, by simp⟩
    rw [hzero]
    decide
  · have hmantissa := (Binary.ofFloat_of_unpack hu).1
    have hnonzero := Binary.isNonzero_ofFloat (x := x) (by omega)
    obtain ⟨n, hsign, hn, hwhole⟩ := exists_numeral_writePositional
      (isDigit_of_mem_shortest .up (Binary.ofFloat x)) (hnonzero.exists_mem_shortest .up) false
    refine ⟨n, hsign, ?_, fun hne => ?_, fun c hc => ?_⟩
    · rw [Format.writeMagnitude, if_neg hnonzero.pos.ne', Numeral.text, hsign, ← hn]
      rfl
    · -- fifteen digits by the magnitude, and one more if rounding up ends at a power of ten
      have hpoint := hnonzero.point_shortest_le .up
      have hmagnitude := magnitude_le_of_lt_bound hu hlt hbits
      have hlength := (hwhole hne).2.1
      omega
    · by_cases hne : n.fraction = []
      · simp [hne] at hc
      · rw [(hwhole hne).2.2] at hc
        exact ne_zero_of_getLast?_shortest .up _ c hc

/-! ## Rounding -/

theorem exists_decimals {fraction : Text} (h : 2 < fraction.length) :
    ∃ a b c rest, fraction = a :: b :: c :: rest := by
  match fraction, h with
  | a :: b :: c :: rest, _ => exact ⟨a, b, c, rest, rfl⟩

/-- Of a numeral the hundredths are reckoned exactly if it has more than two decimals. -/
theorem cents?_magnitude (n : Numeral) :
    cents? n.magnitude =
      if n.fraction.length ≤ 2 then none else some ⌊100 * n.size + 1 / 2⌋₊ := by
  split
  next hle =>
    refine Option.eq_none_iff_forall_ne_some.mpr fun cents hcents => ?_
    obtain ⟨a, b, c, rest, hfraction, -⟩ := cents?_magnitude_eq_some_iff.mp hcents
    simp [hfraction] at hle
  next hlong =>
    obtain ⟨a, b, c, rest, hfraction⟩ := exists_decimals (Nat.lt_of_not_le hlong)
    exact cents?_magnitude_eq_some_iff.mpr ⟨a, b, c, rest, hfraction, Numeral.floor_size hfraction⟩

/-- The rounding is exact on the decimal text of the magnitude. Of a finite number below `1e15` the
text is a decimal; if its hundredths are a whole number, as they are exactly if it has at most two
decimals, the number stays as it is. Otherwise its hundredths are rounded to a whole number, a half
up, all of it within words of 64 bits, and the result is a hundredth of that with the sign of the
number. All other numbers stay as they are. -/
theorem roundToCents_outcome (x : Float) :
    (x.isFinite = true ∧ x.abs < 1e15 → ∃ d : Numeral,
      d.negative = false ∧ Format.plain.write x.abs = d.text ∧
      (d.fraction.length ≤ 2 ↔ ∃ k : ℕ, 100 * d.size = k) ∧
      (d.fraction.length ≤ 2 → roundToCents x = x) ∧
      (2 < d.fraction.length →
        checkedCents? d.whole d.fraction = some ⌊100 * d.size + 1 / 2⌋₊ ∧
        roundToCents x = withSign (Float.ofNat ⌊100 * d.size + 1 / 2⌋₊ / 100.0) x)) ∧
    (¬ (x.isFinite = true ∧ x.abs < 1e15) → roundToCents x = x) ∧
    signBit (roundToCents x) = signBit x := by
  refine ⟨fun ⟨hfinite, hlt⟩ => ?_, fun hout => ?_, signBit_roundToCents x⟩
  · have habs := isFinite_abs hfinite
    have hpositive := isPositive_iff.mpr (signBit_abs x)
    obtain ⟨d, hsign, htext, hwhole, hlast⟩ := exists_numeral_write habs hpositive hlt
    have hmagnitude : d.text = d.magnitude := by simp [Numeral.text, hsign]
    -- the number passes the guard, so that its text decides
    have hguard : ¬ (!x.isFinite || decide (1e15 ≤ x.abs)) = true := by
      simpa [hfinite] using (bound_le_iff_not_lt habs hpositive).not.mpr (not_not_intro hlt)
    refine ⟨d, hsign, htext, Numeral.length_fraction_le_two_iff hlast, fun hle => ?_,
      fun hlong => ⟨?_, ?_⟩⟩
    · rw [roundToCents, if_neg hguard, htext, hmagnitude, cents?_magnitude, if_pos hle]
    · obtain ⟨a, b, c, rest, hfraction⟩ := exists_decimals hlong
      exact Numeral.checkedCents?_eq (hwhole (by simp [hfraction])) hfraction
    · rw [roundToCents, if_neg hguard, htext, hmagnitude, cents?_magnitude,
        if_neg (Nat.not_le.mpr hlong)]
  · have hguard : (!x.isFinite || decide (1e15 ≤ x.abs)) = true := by
      cases hfinite : x.isFinite with
      | false => rfl
      | true =>
        have hle := (bound_le_iff_not_lt (isFinite_abs hfinite)
          (isPositive_iff.mpr (signBit_abs x))).mpr fun hlt => hout ⟨hfinite, hlt⟩
        simpa using hle
    rw [roundToCents, if_pos hguard]

/-- The double nearest to `1.005` lies below it, but its text does not. -/
theorem roundToCents_outcome_thousandths :
    (∃ d : Numeral, Format.plain.write (-1.005 : Float).abs = d.text ∧ d.whole = ['1'] ∧
      d.fraction = "005".toList ∧ checkedCents? d.whole d.fraction = some 101 ∧
      roundToCents (-1.005) = withSign (Float.ofNat 101 / 100.0) (-1.005)) ∧
    signBit (roundToCents (-1.005)) = true ∧ roundToCents 1e15 = 1e15 := by
  obtain ⟨hbelow, -, hsign⟩ := roundToCents_outcome (-1.005)
  obtain ⟨d, hnegative, htext, -, -, hround⟩ := hbelow ⟨by decide +kernel, by decide +kernel⟩
  have hwrite : Format.plain.write (-1.005 : Float).abs = "1.005".toList := by decide +kernel
  have hparts : (['1'], "005".toList) = (d.whole, d.fraction) := by
    have hsplit := splitPoint_magnitude d
    have hmagnitude : d.magnitude = "1.005".toList := by
      rw [← hwrite, htext, Numeral.text, hnegative]
      rfl
    rw [hmagnitude] at hsplit
    split at hsplit
    · cases hsplit
    · exact Option.some.inj hsplit
  obtain ⟨hwhole, hfraction⟩ := Prod.mk.inj hparts
  obtain ⟨hcents, hresult⟩ := hround (by rw [← hfraction]; decide)
  have hchecked : checkedCents? d.whole d.fraction = some 101 := by
    rw [← hwhole, ← hfraction]
    decide
  have hfloor := Option.some.inj (hcents.symm.trans hchecked)
  rw [hfloor] at hresult
  exact ⟨⟨d, htext, hwhole.symm, hfraction.symm, hchecked, hresult⟩,
    hsign.trans (by decide +kernel), (roundToCents_outcome 1e15).2.1 (by decide +kernel)⟩

end LeadingTrim.Decimal

/-
# Seventeen digits suffice

The shortest decimal of a number is looked for on finer and finer grids. On the grid of seventeen
digits a step is less than twice as long as the interval of the reals that are read back as the
number reaches to either side (`den_lt`), so that the nearer of the two neighbours of the number is
one of them (`nearest?_ne_none_of_den_lt`). Zero never is (`pos_of_covers`). So the shortest decimal
has digits (`isDigit_of_mem_shortest`), and one of them is not zero (`exists_mem_shortest`).
-/

import LeadingTrim.Decimal.Shortest
import Mathlib.Tactic.Ring

namespace LeadingTrim.Decimal

/-! ## Digits -/

/-- A number other than zero has a digit other than zero. -/
theorem exists_mem_toDigits {n : Nat} (hn : 0 < n) : ∃ c ∈ Nat.toDigits 10 n, c ≠ '0' := by
  induction n using Nat.strongRecOn with
  | ind n ih =>
    by_cases hlt : n < 10
    · have hsmall : ∀ n < 10, 0 < n → n.digitChar ≠ '0' := by decide
      exact ⟨n.digitChar, by simp [Nat.toDigits_of_lt_base hlt], hsmall n hlt hn⟩
    · obtain ⟨c, hc, hne⟩ := ih (n / 10) (by omega) (by omega)
      refine ⟨c, ?_, hne⟩
      rw [Nat.toDigits_of_base_le (by decide) (by omega)]
      exact List.mem_append_left _ hc

theorem exists_mem_ofScaled {n : Nat} (hn : 0 < n) (scale : Int) :
    ∃ c ∈ (Digits.ofScaled n scale).digits, c ≠ '0' := by
  obtain ⟨c, hc, hne⟩ := exists_mem_toDigits hn
  refine ⟨c, ?_, hne⟩
  rw [← List.mem_reverse,
    ← List.takeWhile_append_dropWhile (p := (· == '0')) (l := (Nat.toDigits 10 n).reverse),
    List.mem_append] at hc
  -- what is left out at the end are zeros
  refine List.mem_reverse.mpr (hc.resolve_left fun hzero => hne ?_)
  exact beq_iff_eq.mp (List.all_eq_true.mp List.all_takeWhile c hzero)

theorem length_ofScaled_le (n : Nat) (scale : Int) :
    (Digits.ofScaled n scale).digits.length ≤ (Nat.toDigits 10 n).length := by
  rw [Digits.ofScaled, List.length_reverse]
  exact (List.dropWhile_sublist _).length_le.trans_eq List.length_reverse

/-- The number of digits tells the size of a number. -/
theorem pow_length_toDigits {n : Nat} (hn : 0 < n) :
    10 ^ ((Nat.toDigits 10 n).length - 1) ≤ n ∧ n < 10 ^ (Nat.toDigits 10 n).length := by
  have hpos : 0 < (Nat.toDigits 10 n).length := Nat.length_toDigits_pos
  refine ⟨?_, (Nat.length_toDigits_le_iff (by decide) hpos).mp (Nat.le_refl _)⟩
  by_cases hone : (Nat.toDigits 10 n).length = 1
  · rw [hone]
    exact hn
  · have hiff := Nat.length_toDigits_le_iff (b := 10) (n := n)
      (k := (Nat.toDigits 10 n).length - 1) (by decide) (by omega)
    omega

/-- The whole part of a fraction tells its size. -/
theorem exists_length_whole {value den : Nat} (hden : 0 < den) (hle : den ≤ value) :
    ∃ length, (Nat.toDigits 10 (value / den)).length = length + 1 ∧
      10 ^ length * den ≤ value ∧ value < 10 ^ (length + 1) * den := by
  obtain ⟨hlow, hhigh⟩ := pow_length_toDigits (Nat.div_pos hle hden)
  obtain ⟨length, hlength⟩ :=
    Nat.exists_eq_succ_of_ne_zero (Nat.length_toDigits_pos (b := 10) (n := value / den)).ne'
  rw [hlength] at hlow hhigh
  exact ⟨length, hlength, (Nat.le_div_iff_mul_le hden).mp hlow,
    (Nat.div_lt_iff_lt_mul hden).mp hhigh⟩

/-- The size of a fraction below one is told by its reciprocal, rounded up and less one. -/
theorem exists_length_reciprocal {value den : Nat} (hvalue : 0 < value) (hlt : value < den) :
    ∃ length, (Nat.toDigits 10 ((den + value - 1) / value - 1)).length = length + 1 ∧
      value * 10 ^ length < den ∧ den ≤ value * 10 ^ (length + 1) := by
  have hceil : 1 < (den + value - 1) / value := by
    rw [Nat.lt_div_iff_mul_lt hvalue]
    omega
  obtain ⟨hlow, hhigh⟩ := pow_length_toDigits (n := (den + value - 1) / value - 1) (by omega)
  obtain ⟨length, hlength⟩ := Nat.exists_eq_succ_of_ne_zero (Nat.length_toDigits_pos (b := 10)
    (n := (den + value - 1) / value - 1)).ne'
  rw [hlength] at hlow hhigh
  refine ⟨length, hlength, ?_, ?_⟩
  · have hdiv : 10 ^ length + 1 ≤ (den + value - 1) / value := by
      rw [Nat.succ_sub_one] at hlow
      omega
    have hmul := (Nat.le_div_iff_mul_le hvalue).mp hdiv
    rw [Nat.add_mul, Nat.mul_comm (10 ^ length)] at hmul
    omega
  · have hdiv : (den + value - 1) / value ≤ 10 ^ (length + 1) := by omega
    have hmul := (Nat.div_le_iff_le_mul_add_pred hvalue).mp hdiv
    omega

theorem isDigit_of_mem_ofScaled {n : Nat} {scale : Int} :
    ∀ c ∈ (Digits.ofScaled n scale).digits, c.isDigit = true := by
  intro c hc
  have hsub := (List.dropWhile_sublist (· == '0') (l := (Nat.toDigits 10 n).reverse)).subset
  exact Nat.isDigit_of_mem_toDigits (by decide) (by decide)
    (List.mem_reverse.mp (hsub (List.mem_reverse.mp hc)))

/-- Zeros at the end are left out. -/
theorem ne_zero_of_getLast?_ofScaled {n : Nat} {scale : Int} :
    ∀ c ∈ (Digits.ofScaled n scale).digits.getLast?, c ≠ '0' := by
  intro c hc
  have hstop := List.head?_dropWhile_not (· == '0') (Nat.toDigits 10 n).reverse
  rw [Digits.ofScaled, List.getLast?_reverse, Option.mem_def] at hc
  rw [hc] at hstop
  exact ne_of_beq_false hstop

/-! ## Scales -/

theorem scaleBy_pos {base : Nat} (hbase : 0 < base) (exponent : Int) {fraction : Nat × Nat}
    (hnum : 0 < fraction.1) (hden : 0 < fraction.2) :
    0 < (scaleBy base exponent fraction).1 ∧ 0 < (scaleBy base exponent fraction).2 := by
  have hpow : ∀ n, 0 < Nat.pow base n := fun n => Nat.pow_pos hbase
  cases exponent with
  | ofNat n => exact ⟨Nat.mul_pos hnum (hpow n), hden⟩
  | negSucc n => exact ⟨hnum, Nat.mul_pos hden (hpow (n + 1))⟩

/-- Scaling multiplies a fraction by the power, here written without division. -/
theorem scaleBy_cross (base up down : Nat) {exponent : Int}
    (hexponent : exponent = Int.ofNat up - Int.ofNat down) (fraction : Nat × Nat) :
    (scaleBy base exponent fraction).1 * (fraction.2 * base ^ down) =
      fraction.1 * base ^ up * (scaleBy base exponent fraction).2 := by
  cases exponent with
  | ofNat n =>
    have hup : up = n + down := by simp at hexponent; omega
    subst hup
    simp only [scaleBy, Nat.pow_eq, Nat.pow_add]
    ring
  | negSucc n =>
    have hdown : down = up + (n + 1) := by simp at hexponent; omega
    subst hdown
    simp only [scaleBy, Nat.pow_eq, Nat.pow_add]
    ring

/-- A bound on a scaled fraction, with the power on the side where it is a whole number. -/
theorem mul_le_of_scaleBy {base : Nat} {exponent : Int} (hbase : 0 < base) (up down : Nat)
    (hexponent : exponent = Int.ofNat up - Int.ofNat down) {fraction : Nat × Nat}
    (hden : 0 < fraction.2) {m n : Nat}
    (hle : fraction.2 * base ^ down * n ≤ m * fraction.1 * base ^ up) :
    (scaleBy base exponent fraction).2 * n ≤ m * (scaleBy base exponent fraction).1 := by
  have hcross := scaleBy_cross base up down hexponent fraction
  generalize scaleBy base exponent fraction = scaled at *
  refine Nat.le_of_mul_le_mul_right ?_ (Nat.mul_pos hden (Nat.pow_pos (n := down) hbase))
  calc scaled.2 * n * (fraction.2 * base ^ down)
      = fraction.2 * base ^ down * n * scaled.2 := by ring
    _ ≤ m * fraction.1 * base ^ up * scaled.2 := Nat.mul_le_mul_right _ hle
    _ = m * (fraction.1 * base ^ up * scaled.2) := by ring
    _ = m * scaled.1 * (fraction.2 * base ^ down) := by rw [← hcross]; ring

/-- A bound on a scaled fraction from above. -/
theorem mul_lt_of_scaleBy {base : Nat} {exponent : Int} (hbase : 0 < base) (up down : Nat)
    (hexponent : exponent = Int.ofNat up - Int.ofNat down) {fraction : Nat × Nat}
    (hnum : 0 < fraction.1) (hden : 0 < fraction.2) {m n : Nat}
    (hlt : m * fraction.1 * base ^ up < fraction.2 * base ^ down * n) :
    m * (scaleBy base exponent fraction).1 < (scaleBy base exponent fraction).2 * n := by
  have hcross := scaleBy_cross base up down hexponent fraction
  have hpos := (scaleBy_pos hbase exponent hnum hden).2
  generalize scaleBy base exponent fraction = scaled at *
  refine Nat.lt_of_mul_lt_mul_right (a := fraction.2 * base ^ down) ?_
  calc m * scaled.1 * (fraction.2 * base ^ down)
      = m * (fraction.1 * base ^ up * scaled.2) := by rw [← hcross]; ring
    _ = m * fraction.1 * base ^ up * scaled.2 := by ring
    _ < fraction.2 * base ^ down * n * scaled.2 := Nat.mul_lt_mul_of_pos_right hlt hpos
    _ = scaled.2 * n * (fraction.2 * base ^ down) := by ring

namespace Binary

/-- The magnitude is that of a double other than zero. -/
structure IsNonzero (b : Binary) : Prop where
  pos : 0 < b.mantissa
  lt : b.mantissa < 2 ^ 53
  narrow : b.narrowBelow = true → b.mantissa = 2 ^ 52

variable {b : Binary}

theorem unit_pos (b : Binary) :
    0 < (scaleBy 2 (b.exponent - 2) (1, 1)).1 ∧ 0 < (scaleBy 2 (b.exponent - 2) (1, 1)).2 :=
  scaleBy_pos (by decide) _ (by decide) (by decide)

theorem quarter_pos (b : Binary) (scale : Int) :
    0 < (b.quarter scale).1 ∧ 0 < (b.quarter scale).2 :=
  scaleBy_pos (by decide) (-scale) b.unit_pos.1 b.unit_pos.2

/-- On a grid whose scale is the magnitude less a number of digits, the number has so many digits
before the point. -/
theorem value_bounds (hpos : 0 < b.mantissa) (n : Nat) :
    (b.quarter (b.magnitude - Int.ofNat (n + 1))).2 * 10 ^ n ≤
        4 * b.mantissa * (b.quarter (b.magnitude - Int.ofNat (n + 1))).1 ∧
      4 * b.mantissa * (b.quarter (b.magnitude - Int.ofNat (n + 1))).1 <
        (b.quarter (b.magnitude - Int.ofNat (n + 1))).2 * 10 ^ (n + 1) := by
  obtain ⟨hnum, hden⟩ := b.unit_pos
  have hquarter : b.quarter 0 = scaleBy 2 (b.exponent - 2) (1, 1) := by
    simp [quarter, scaleBy]
  rw [quarter, magnitude, hquarter]
  generalize scaleBy 2 (b.exponent - 2) (1, 1) = fraction at *
  obtain ⟨unit, den⟩ := fraction
  dsimp only at *
  have hvalue : 0 < 4 * b.mantissa * unit := Nat.mul_pos (by omega) hnum
  generalize 4 * b.mantissa = m at *
  split
  next hle =>
    obtain ⟨length, hlength, hlow, hhigh⟩ := exists_length_whole hden hle
    rw [hlength]
    refine ⟨mul_le_of_scaleBy (by decide) (n + 1) (length + 1) (Int.neg_sub _ _) hden ?_,
      mul_lt_of_scaleBy (by decide) (n + 1) (length + 1) (Int.neg_sub _ _) hnum hden ?_⟩
    · calc den * 10 ^ (length + 1) * 10 ^ n
          = 10 ^ length * den * 10 ^ (n + 1) := by ring
        _ ≤ m * unit * 10 ^ (n + 1) := Nat.mul_le_mul_right _ hlow
    · calc m * unit * 10 ^ (n + 1)
          < 10 ^ (length + 1) * den * 10 ^ (n + 1) :=
            Nat.mul_lt_mul_of_pos_right hhigh (Nat.pow_pos (by decide))
        _ = den * 10 ^ (length + 1) * 10 ^ (n + 1) := by ring
  next hlt =>
    obtain ⟨length, hlength, hlow, hhigh⟩ := exists_length_reciprocal hvalue (Nat.lt_of_not_le hlt)
    rw [hlength]
    have hexponent : -(1 - Int.ofNat (length + 1) - Int.ofNat (n + 1)) =
        Int.ofNat (n + 1 + length) - Int.ofNat 0 := by
      simp
    refine ⟨mul_le_of_scaleBy (by decide) _ _ hexponent hden ?_,
      mul_lt_of_scaleBy (by decide) _ _ hexponent hnum hden ?_⟩
    · calc den * 10 ^ 0 * 10 ^ n
          = den * 10 ^ n := by ring
        _ ≤ m * unit * 10 ^ (length + 1) * 10 ^ n := Nat.mul_le_mul_right _ hhigh
        _ = m * unit * 10 ^ (n + 1 + length) := by ring
    · calc m * unit * 10 ^ (n + 1 + length)
          = m * unit * 10 ^ length * 10 ^ (n + 1) := by ring
        _ < den * 10 ^ (n + 1) := Nat.mul_lt_mul_of_pos_right hlow (Nat.pow_pos (by decide))
        _ = den * 10 ^ 0 * 10 ^ (n + 1) := by ring

/-! ## Grids -/

/-- How far the interval of the number reaches down, in quarters of its last bit. -/
def reach (b : Binary) : Nat := if b.narrowBelow then 1 else 2

theorem reach_le (b : Binary) : b.reach ≤ 2 := by
  unfold reach
  split <;> decide

/-- What is nearer to the number than the ends of its interval is read back as it. -/
theorem covers_of_lt (hpos : 0 < b.mantissa) {scale : Int} {n : Nat}
    (hlow : 4 * b.mantissa * (b.quarter scale).1 <
      n * (b.quarter scale).2 + b.reach * (b.quarter scale).1)
    (hhigh : n * (b.quarter scale).2 <
      4 * b.mantissa * (b.quarter scale).1 + 2 * (b.quarter scale).1) :
    b.covers scale n = true := by
  have hlow : (4 * b.mantissa - b.reach) * (b.quarter scale).1 < n * (b.quarter scale).2 := by
    have hreach : b.reach * (b.quarter scale).1 ≤ 4 * b.mantissa * (b.quarter scale).1 :=
      Nat.mul_le_mul_right _ (by have := b.reach_le; omega)
    rw [Nat.sub_mul]
    omega
  rw [← Nat.add_mul] at hhigh
  unfold covers
  dsimp only
  rw [← reach]
  split
  · simp [hlow.le, hhigh.le]
  · simp [hlow, hhigh]

/-- Zero is not read back as the number. -/
theorem pos_of_covers (hpos : 0 < b.mantissa) {scale : Int} {n : Nat}
    (h : b.covers scale n = true) : 0 < n := by
  have hlow : 0 < (4 * b.mantissa - b.reach) * (b.quarter scale).1 :=
    Nat.mul_pos (by have := b.reach_le; omega) (quarter_pos b scale).1
  refine Nat.pos_of_ne_zero fun hzero => ?_
  subst hzero
  unfold covers at h
  dsimp only at h
  rw [← reach, Nat.zero_mul] at h
  split at h
  · exact absurd (of_decide_eq_true (Bool.and_eq_true_iff.mp h).1) (Nat.not_le.mpr hlow)
  · exact absurd (of_decide_eq_true (Bool.and_eq_true_iff.mp h).1) (Nat.not_lt_zero _)

theorem covers_of_nearest? {tie : Tie} {scale : Int} {n : Nat}
    (h : b.nearest? tie scale = some n) : b.covers scale n = true := by
  unfold nearest? at h
  dsimp only at h
  grind

/-- What is found is the number rounded down or up. -/
theorem le_of_nearest? {tie : Tie} {scale : Int} {n : Nat} (h : b.nearest? tie scale = some n) :
    n ≤ 4 * b.mantissa * (b.quarter scale).1 / (b.quarter scale).2 + 1 := by
  unfold nearest? at h
  dsimp only at h
  grind

/-- If nothing on a grid is found, neither neighbour of the number is read back as it. -/
theorem not_covers_of_nearest? {tie : Tie} {scale : Int} (h : b.nearest? tie scale = none) :
    b.covers scale (4 * b.mantissa * (b.quarter scale).1 / (b.quarter scale).2) = false ∧
      b.covers scale (4 * b.mantissa * (b.quarter scale).1 / (b.quarter scale).2 + 1) = false := by
  unfold nearest? at h
  dsimp only at h
  grind

/-- On the grid of seventeen digits a step is less than twice as long as the interval reaches. -/
theorem IsNonzero.den_lt (hb : b.IsNonzero) :
    (b.quarter (b.magnitude - Int.ofNat 17)).2 <
      2 * (b.reach * (b.quarter (b.magnitude - Int.ofNat 17)).1) := by
  have hle := (value_bounds hb.pos 16).1
  have hpos := (quarter_pos b (b.magnitude - Int.ofNat 17)).1
  generalize b.quarter (b.magnitude - Int.ofNat 17) = fraction at *
  unfold reach
  split
  next hnarrow =>
    rw [hb.narrow hnarrow] at hle
    omega
  · have hlt := Nat.mul_le_mul_right fraction.1 (Nat.mul_le_mul_left 4 (Nat.le_of_lt hb.lt))
    omega

/-- On a grid as fine as that the nearer of the two neighbours is read back as the number. -/
theorem nearest?_ne_none_of_den_lt (hpos : 0 < b.mantissa) (tie : Tie) {scale : Int}
    (hden : (b.quarter scale).2 < 2 * (b.reach * (b.quarter scale).1)) :
    b.nearest? tie scale ≠ none := by
  -- the two neighbours are tried, and one of them is at most half a step away
  intro hnone
  obtain ⟨hbelow, habove⟩ := not_covers_of_nearest? hnone
  have hreach := Nat.mul_le_mul_right (b.quarter scale).1 b.reach_le
  have hrest := Nat.mod_lt (4 * b.mantissa * (b.quarter scale).1) (quarter_pos b scale).2
  have hdiv := Nat.div_add_mod' (4 * b.mantissa * (b.quarter scale).1) (b.quarter scale).2
  generalize 4 * b.mantissa * (b.quarter scale).1 / (b.quarter scale).2 = quot at *
  generalize 4 * b.mantissa * (b.quarter scale).1 % (b.quarter scale).2 = rest at *
  by_cases hnear : 2 * rest ≤ (b.quarter scale).2
  · have hcovers : b.covers scale quot = true := covers_of_lt hpos (by omega) (by omega)
    rw [hbelow] at hcovers
    cases hcovers
  · have hsucc : (quot + 1) * (b.quarter scale).2 = quot * (b.quarter scale).2 +
      (b.quarter scale).2 := Nat.succ_mul _ _
    have hcovers : b.covers scale (quot + 1) = true := covers_of_lt hpos (by omega) (by omega)
    rw [habove] at hcovers
    cases hcovers

/-- The shortest decimal is found on a grid, or it is not even found on that of seventeen digits. -/
theorem shortest_cases (tie : Tie) (b : Binary) :
    (∃ n < 17, ∃ k, b.nearest? tie (b.magnitude - Int.ofNat (n + 1)) = some k ∧
      b.shortest tie = Digits.ofScaled k (b.magnitude - Int.ofNat (n + 1))) ∨
    b.nearest? tie (b.magnitude - Int.ofNat 17) = none ∧ b.shortest tie = ⟨[], 0⟩ := by
  unfold shortest
  dsimp only
  cases hhit : List.findSome? _ _ with
  | none =>
    have hlast := List.findSome?_eq_none_iff.mp hhit 16 (by decide)
    exact Or.inr ⟨Option.map_eq_none_iff.mp hlast, rfl⟩
  | some d =>
    obtain ⟨n, hn, hd⟩ := List.exists_of_findSome?_eq_some hhit
    obtain ⟨k, hnearest, rfl⟩ := Option.map_eq_some_iff.mp hd
    exact Or.inl ⟨n, List.mem_range.mp hn, k, hnearest, rfl⟩

/-- The shortest decimal of a number other than zero is found. -/
theorem IsNonzero.exists_shortest (hb : b.IsNonzero) (tie : Tie) :
    ∃ n < 17, ∃ k, b.nearest? tie (b.magnitude - Int.ofNat (n + 1)) = some k ∧
      b.shortest tie = Digits.ofScaled k (b.magnitude - Int.ofNat (n + 1)) :=
  (shortest_cases tie b).resolve_right fun h =>
    nearest?_ne_none_of_den_lt hb.pos tie hb.den_lt h.1

/-- One of its digits is not zero. -/
theorem IsNonzero.exists_mem_shortest (hb : b.IsNonzero) (tie : Tie) :
    ∃ c ∈ (b.shortest tie).digits, c ≠ '0' := by
  obtain ⟨n, -, k, hnearest, hshortest⟩ := hb.exists_shortest tie
  rw [hshortest]
  exact exists_mem_ofScaled (pos_of_covers hb.pos (covers_of_nearest? hnearest)) _

/-- What is found on the grid of so many digits has as many, or it is the next power of ten. -/
theorem length_toDigits_le_of_nearest? (hpos : 0 < b.mantissa) {tie : Tie} {n k : Nat}
    (h : b.nearest? tie (b.magnitude - Int.ofNat (n + 1)) = some k) :
    (Nat.toDigits 10 k).length ≤ n + 2 := by
  have hlt : 4 * b.mantissa * (b.quarter (b.magnitude - Int.ofNat (n + 1))).1 /
      (b.quarter (b.magnitude - Int.ofNat (n + 1))).2 < 10 ^ (n + 1) := by
    rw [Nat.div_lt_iff_lt_mul (quarter_pos b _).2, Nat.mul_comm (10 ^ (n + 1))]
    exact (value_bounds hpos n).2
  have hle := le_of_nearest? h
  have hpow : 10 ^ (n + 2) = 10 ^ (n + 1) * 10 := Nat.pow_succ ..
  have hpos : 0 < 10 ^ (n + 1) := Nat.pow_pos (by decide)
  exact (Nat.length_toDigits_le_iff (by decide) (by omega)).mpr (by omega)

/-- The shortest decimal has at most eighteen digits. -/
theorem IsNonzero.length_shortest_le (hb : b.IsNonzero) (tie : Tie) :
    (b.shortest tie).digits.length ≤ 18 := by
  obtain ⟨n, hn, k, hnearest, hshortest⟩ := hb.exists_shortest tie
  have hlength := length_toDigits_le_of_nearest? hb.pos hnearest
  rw [hshortest]
  exact Nat.le_trans (length_ofScaled_le k _) (by omega)

/-- Rounding moves the decimal point by one place at most. -/
theorem IsNonzero.point_shortest_le (hb : b.IsNonzero) (tie : Tie) :
    (b.shortest tie).point ≤ b.magnitude + 1 := by
  obtain ⟨n, -, k, hnearest, hshortest⟩ := hb.exists_shortest tie
  have hlength := length_toDigits_le_of_nearest? hb.pos hnearest
  rw [hshortest]
  simp only [Digits.ofScaled, Int.ofNat_eq_natCast]
  omega

end Binary

/-- The shortest decimal is made of digits. -/
theorem isDigit_of_mem_shortest (tie : Tie) (b : Binary) :
    ∀ c ∈ (b.shortest tie).digits, c.isDigit = true := by
  obtain ⟨n, -, k, -, hshortest⟩ | ⟨-, hshortest⟩ := b.shortest_cases tie
  · rw [hshortest]
    exact isDigit_of_mem_ofScaled
  · rw [hshortest]
    exact List.forall_mem_nil _

/-- Its last digit is not zero. -/
theorem ne_zero_of_getLast?_shortest (tie : Tie) (b : Binary) :
    ∀ c ∈ (b.shortest tie).digits.getLast?, c ≠ '0' := by
  obtain ⟨n, -, k, -, hshortest⟩ | ⟨-, hshortest⟩ := b.shortest_cases tie
  · rw [hshortest]
    exact ne_zero_of_getLast?_ofScaled
  · rw [hshortest]
    simp

end LeadingTrim.Decimal

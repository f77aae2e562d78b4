/-
# Finite numbers and non-numbers

A double is unpacked, reckoned with and packed again. Packing keeps what is no non-number so
(`isNaN_pack`), and it keeps a number finite whose exponent is not too great (`exponentLe_pack`).
Hence no non-number is read (`isNaN_of_unsigned?`) and none arises from numbers by negation, by
rounding, by a difference with a finite number or by dividing by one that is not zero. A finite
number that does not equal zero has a mantissa (`Binary.mantissa_ofFloat_ne_zero`).
-/

import LeadingTrim.Decimal.Cents
import LeadingTrim.Proofs.Decimal.Shortest
import Mathlib

namespace LeadingTrim.Decimal

open Float.Model (Format UnpackedFloat)
open Float.Model.UnpackedFloat (unpackExponent unpackMantissa packedInfinity packedNaN packedZero)

/-! ## Kinds of numbers -/

theorem isNaN_of_isFinite {x : Float} (hx : x.isFinite = true) : x.isNaN = false := by
  change x.toModel.unpack.isFinite = true at hx
  change x.toModel.unpack.isNaN = false
  generalize x.toModel.unpack = u at *
  cases u with
  | infinity s => cases hx
  | notANumber => cases hx
  | zero s => rfl
  | finite s m e hm => rfl

theorem isFinite_eq_false_iff {x : Float} :
    x.isFinite = false ↔ x.isNaN = true ∨ x.isInf = true := by
  change x.toModel.unpack.isFinite = false ↔
    x.toModel.unpack.isNaN = true ∨ x.toModel.unpack.isInf = true
  cases x.toModel.unpack <;>
    simp [UnpackedFloat.isFinite, UnpackedFloat.isNaN, UnpackedFloat.isInf]

/-! ## Packing -/

section Unpack

variable (b : BitVec Format.binary64.numBits)

theorem isNaN_unpack : (UnpackedFloat.unpack Format.binary64 b).isNaN = true ↔
    unpackExponent b = -1#_ ∧ unpackMantissa b ≠ 0#_ := by
  unfold UnpackedFloat.unpack
  dsimp only
  split
  · split <;> simp_all [UnpackedFloat.isNaN]
  · split
    · split <;> simp_all [UnpackedFloat.isNaN]
    · simp_all [UnpackedFloat.isNaN]

theorem isFinite_unpack : (UnpackedFloat.unpack Format.binary64 b).isFinite = true ↔
    unpackExponent b ≠ -1#_ := by
  unfold UnpackedFloat.unpack
  dsimp only
  split
  · split <;> simp_all [UnpackedFloat.isFinite]
  · split
    · split <;> simp_all [UnpackedFloat.isFinite]
    · simp_all [UnpackedFloat.isFinite]

end Unpack

/-- A biased exponent below the greatest one is not mistaken for it. -/
theorem ofNat_ne_neg_one {biased : Nat} (h : ¬2 ^ 11 ≤ biased + 1) :
    BitVec.ofNat 11 biased ≠ -1#11 := by
  intro heq
  have hnat : biased % 2 ^ 11 = 2 ^ 11 - 1 := congrArg BitVec.toNat heq
  omega

/-- Packing makes no non-number, and keeps one. -/
theorem isNaN_pack (u : UnpackedFloat) : (Float.Model.pack u).isNaN = u.isNaN := by
  have hiff := isNaN_unpack (UnpackedFloat.pack Format.binary64 u)
  change (UnpackedFloat.unpack Format.binary64 (UnpackedFloat.pack Format.binary64 u)).isNaN = _
  rw [Bool.eq_iff_iff, hiff]
  fun_cases UnpackedFloat.pack with
  | case1 => simp [packedNaN, UnpackedFloat.isNaN]
  | case2 s => simp [packedInfinity, UnpackedFloat.isNaN]
  | case3 s => simp [packedZero, UnpackedFloat.isNaN]
  | case4 s m e hm biased h => simp [packedInfinity, UnpackedFloat.isNaN]
  | case5 s m e hm bits biased h =>
    have hne := ofNat_ne_neg_one h
    simpa [UnpackedFloat.isNaN] using fun heq => absurd heq hne
  | case6 s m e hm bits biased h => simp [UnpackedFloat.isNaN]

/-- The number is zero, or it is finite and its exponent is at most the given one. -/
inductive ExponentLe (bound : Int) : UnpackedFloat → Prop
  | zero (s : UnpackedFloat.Sign) : ExponentLe bound (.zero s)
  | finite (s : UnpackedFloat.Sign) (m : Nat) {e : Int} (hm : 0 < m) (hle : e ≤ bound) :
    ExponentLe bound (.finite s m e hm)

theorem ExponentLe.isFinite {bound : Int} {u : UnpackedFloat} (h : ExponentLe bound u) :
    u.isFinite = true := by
  cases h with
  | zero s => rfl
  | finite s m hm hle => rfl

theorem ExponentLe.mono {bound bound' : Int} {u : UnpackedFloat} (h : ExponentLe bound u)
    (hbound : bound ≤ bound') : ExponentLe bound' u := by
  cases h with
  | zero s => exact .zero s
  | finite s m hm hle => exact .finite s m hm (Int.le_trans hle hbound)

/-- The exponent of a finite number that is unpacked is the one in its bits. -/
theorem exponentLe_unpack {b : BitVec Format.binary64.numBits} {bound : Int}
    (hlt : (unpackExponent b).toNat < 2 ^ 11 - 1) (hmin : -1074 ≤ bound)
    (hbound : (unpackExponent b).toNat - 1075 ≤ bound) :
    ExponentLe bound (UnpackedFloat.unpack Format.binary64 b) := by
  have hbias : Format.binary64.exponentBias = 1023 := rfl
  unfold UnpackedFloat.unpack
  simp only [hbias]
  split
  next hmax =>
    rw [hmax] at hlt
    exact absurd hlt (by decide)
  · split
    next hzero =>
      split
      · exact .zero _
      · exact .finite _ _ _ (by rw [hzero]; exact hmin)
    · exact .finite _ _ _ hbound

/-- A number that is unpacked has at most fifty-three bits. -/
theorem lt_of_unpack {b : BitVec Format.binary64.numBits} {s : UnpackedFloat.Sign} {m : Nat}
    {e : Int} {hm : 0 < m} (h : UnpackedFloat.unpack .binary64 b = .finite s m e hm) :
    m < 2 ^ 53 := by
  have hfraction : (unpackMantissa b).toNat < 2 ^ 52 := (unpackMantissa b).isLt
  have hwhole : (1#1 ++ unpackMantissa b).toNat < 2 ^ 53 := (1#1 ++ unpackMantissa b).isLt
  unfold UnpackedFloat.unpack at h
  dsimp only at h
  split at h
  · split at h <;> cases h
  · split at h
    · split at h
      · cases h
      · injection h
        omega
    · injection h
      omega

theorem ExponentLe.exists_unpack {bound : Int} {x : Float}
    (h : ExponentLe bound x.toModel.unpack) :
    (∃ s, x.toModel.unpack = .zero s) ∨
      ∃ s m e hm, x.toModel.unpack = .finite s m e hm ∧ e ≤ bound ∧ m < 2 ^ 53 := by
  cases hu : x.toModel.unpack with
  | infinity s => rw [hu] at h; cases h
  | notANumber => rw [hu] at h; cases h
  | zero s => exact Or.inl ⟨s, rfl⟩
  | finite s m e hm =>
    rw [hu] at h
    cases h with | finite _ _ _ hle =>
    exact Or.inr ⟨s, m, e, hm, rfl, hle, lt_of_unpack hu⟩

theorem exponentLe_of_isFinite {x : Float} (h : x.isFinite = true) :
    ExponentLe 971 x.toModel.unpack := by
  have hne := (isFinite_unpack x.toModel.toBits.toBitVec).mp h
  have hlt : (@unpackExponent .binary64 x.toModel.toBits.toBitVec).toNat < 2 ^ 11 :=
    (unpackExponent _).isLt
  have hmax : (@unpackExponent .binary64 x.toModel.toBits.toBitVec).toNat ≠ 2 ^ 11 - 1 :=
    fun heq => hne (BitVec.eq_of_toNat_eq heq)
  exact exponentLe_unpack (by omega) (by decide) (by omega)

/-- Packing keeps a number finite unless its exponent is too great. -/
theorem exponentLe_pack {u : UnpackedFloat} {bound : Int} (h : ExponentLe bound u)
    (hmin : -1074 ≤ bound) (hmax : bound ≤ 971) :
    ExponentLe bound (Float.Model.pack u).unpack := by
  change ExponentLe bound (UnpackedFloat.unpack .binary64 (UnpackedFloat.pack .binary64 u))
  have hbias : Format.binary64.exponentBias = 1023 := rfl
  fun_cases UnpackedFloat.pack with
  | case1 => cases h
  | case2 s => cases h
  | case3 s => exact exponentLe_unpack (by simp [packedZero]) hmin (by simp [packedZero]; omega)
  | case4 s m e hm biased hover =>
    cases h with | finite _ _ _ hle =>
    simp [biased, hbias] at hover
    omega
  | case5 s m e hm bits biased hover =>
    cases h with | finite _ _ _ hle =>
    have hlt : ¬2 ^ 11 ≤ biased + 1 := hover
    have hbiased : biased = (e + 1075).toNat := by simp [biased, hbias, Int.add_assoc]
    refine exponentLe_unpack ?_ hmin ?_
    all_goals
      rw [UnpackedFloat.unpackExponent_packComponents, BitVec.toNat_ofNat,
        Nat.mod_eq_of_lt (by omega)]
      omega
  | case6 s m e hm bits biased hover =>
    exact exponentLe_unpack (by simp) hmin (by simp; omega)

theorem isFinite_neg {x : Float} (h : x.isFinite = true) : (-x).isFinite = true := by
  have hle := exponentLe_of_isFinite h
  have hneg : ExponentLe 971 x.toModel.unpack.neg := by
    generalize x.toModel.unpack = u at *
    cases hle with
    | zero s => exact .zero _
    | finite s m hm hle => exact .finite _ _ _ hle
  exact (exponentLe_pack hneg (by decide) (by decide)).isFinite

/-! ## Numbers other than zero -/

theorem toNat_unpackExponent (b : BitVec Format.binary64.numBits) :
    (unpackExponent b).toNat = b.toNat / Nat.pow 2 52 % Nat.pow 2 11 := by
  simp [unpackExponent, Nat.shiftRight_eq_div_pow]

theorem toNat_unpackMantissa (b : BitVec Format.binary64.numBits) :
    (unpackMantissa b).toNat = b.toNat % Nat.pow 2 52 := by
  simp [unpackMantissa]

theorem Binary.isNonzero_ofFloat {x : Float} (hx : (Binary.ofFloat x).mantissa ≠ 0) :
    (Binary.ofFloat x).IsNonzero := by
  have hmod : x.toBits.toNat % Nat.pow 2 52 < 2 ^ 52 := Nat.mod_lt _ (by decide)
  refine ⟨Nat.pos_of_ne_zero hx, ?_, ?_⟩
  · unfold Binary.ofFloat
    dsimp only
    split
    · exact Nat.lt_trans hmod (by decide)
    · change 2 ^ 52 + _ < 2 ^ 53
      omega
  · unfold Binary.ofFloat
    dsimp only
    split
    · intro h
      cases h
    · intro hnarrow
      have hzero : x.toBits.toNat % Nat.pow 2 52 = 0 :=
        of_decide_eq_true (Bool.and_eq_true_iff.mp hnarrow).1
      dsimp only
      rw [hzero]
      rfl

/-- The magnitude of a number that does not equal zero is not zero. -/
theorem Binary.mantissa_ofFloat_ne_zero {x : Float} (hx : (x == 0.0) = false) :
    (Binary.ofFloat x).mantissa ≠ 0 := by
  unfold Binary.ofFloat
  dsimp only
  split
  next hfield =>
    intro hfraction
    have hexponent : @unpackExponent .binary64 x.toBits.toBitVec = 0#11 :=
      BitVec.eq_of_toNat_eq ((toNat_unpackExponent _).trans hfield)
    have hmantissa : @unpackMantissa .binary64 x.toBits.toBitVec = 0#52 :=
      BitVec.eq_of_toNat_eq ((toNat_unpackMantissa _).trans hfraction)
    have hzero : ∃ s, x.toModel.unpack = .zero s := by
      change ∃ s, UnpackedFloat.unpack .binary64 x.toBits.toBitVec = .zero s
      unfold UnpackedFloat.unpack
      dsimp only
      rw [if_neg (hexponent ▸ by decide), if_pos hexponent, dif_pos hmantissa]
      exact ⟨_, rfl⟩
    obtain ⟨s, hs⟩ := hzero
    change x.toModel.unpack.beq (.zero .positive) = false at hx
    rw [hs] at hx
    cases s <;> cases hx
  · exact (Nat.add_pos_left (by decide) _).ne'

/-- The magnitude of a finite number other than zero is what its bits are unpacked to. -/
theorem Binary.ofFloat_of_unpack {x : Float} {s : UnpackedFloat.Sign} {m : Nat} {e : Int}
    {hm : 0 < m} (h : x.toModel.unpack = .finite s m e hm) :
    (Binary.ofFloat x).mantissa = m ∧ (Binary.ofFloat x).exponent = e := by
  change UnpackedFloat.unpack .binary64 x.toBits.toBitVec = _ at h
  have hexponent := toNat_unpackExponent x.toBits.toBitVec
  have hmantissa := toNat_unpackMantissa x.toBits.toBitVec
  have hbias : Format.binary64.exponentBias = 1023 := rfl
  change _ = x.toBits.toNat / _ % _ at hexponent
  change _ = x.toBits.toNat % _ at hmantissa
  unfold UnpackedFloat.unpack at h
  unfold Binary.ofFloat
  dsimp only at h ⊢
  split at h
  · split at h <;> cases h
  · split at h
    next hzero =>
      have hfield : x.toBits.toNat / Nat.pow 2 52 % Nat.pow 2 11 = 0 :=
        hexponent.symm.trans (congrArg BitVec.toNat hzero)
      rw [if_pos hfield]
      split at h
      · cases h
      · injection h with _ hm he
        rw [hzero, hbias] at he
        exact ⟨hmantissa.symm.trans hm, he⟩
    next hne =>
      have hfield : x.toBits.toNat / Nat.pow 2 52 % Nat.pow 2 11 ≠ 0 := fun heq =>
        hne (BitVec.eq_of_toNat_eq (hexponent.trans heq))
      rw [if_neg hfield]
      injection h with _ hm he
      -- the leading one is left out of the bits
      have hwhole := Nat.shiftLeft_add_eq_or_of_lt
        (@unpackMantissa .binary64 x.toBits.toBitVec).isLt 1
      rw [BitVec.toNat_append] at hm
      rw [hbias, hexponent] at he
      refine ⟨?_, he⟩
      rw [← hm, ← hmantissa]
      exact hwhole

/-! ## Equal numbers -/

theorem exists_unpack_of_beq_zero {x : Float} (h : (x == 0.0) = true) :
    ∃ s, x.toModel.unpack = .zero s := by
  obtain ⟨-, -, h | ⟨h, -⟩ | ⟨h, -⟩⟩ := (UnpackedFloat.beq_iff_ne_notANumber_and_eq _ _).mp h
  · exact ⟨_, h⟩
  · exact ⟨_, h⟩
  · exact ⟨_, h⟩

/-- What equals a number that is finite and positive is the same number. -/
theorem unpack_eq_of_beq {x y : Float} {m : Nat} {e : Int} {hm : 0 < m}
    (hy : y.toModel.unpack = .finite .positive m e hm) (h : (x == y) = true) :
    x.toModel.unpack = .finite .positive m e hm := by
  obtain ⟨-, -, h | ⟨-, h⟩ | ⟨-, h⟩⟩ := (UnpackedFloat.beq_iff_ne_notANumber_and_eq _ _).mp h
  · exact h.trans hy
  · exact absurd (hy.symm.trans h) nofun
  · exact absurd (hy.symm.trans h) nofun

/-! ## Non-numbers -/

theorem isNaN_neg (x : Float) : (-x).isNaN = x.isNaN := by
  change (Float.Model.pack x.toModel.unpack.neg).isNaN = x.toModel.unpack.isNaN
  rw [isNaN_pack]
  cases x.toModel.unpack <;> rfl

theorem isNaN_roundWithAccuracy (s : UnpackedFloat.Sign) (m : Nat) (e : Int)
    (a : UnpackedFloat.Accuracy) :
    (UnpackedFloat.roundWithAccuracy .binary64 s m e a).isNaN = false := by
  unfold UnpackedFloat.roundWithAccuracy
  dsimp only
  split <;> rfl

theorem isNaN_normalize (m : Int) (e : Int) (s : UnpackedFloat.Sign) :
    (UnpackedFloat.normalize .binary64 m e s).isNaN = false := by
  unfold UnpackedFloat.normalize
  split
  · exact isNaN_roundWithAccuracy _ _ _ _
  · rfl
  · exact isNaN_roundWithAccuracy _ _ _ _

/-- The difference of two numbers of which one is finite is a number. -/
theorem isNaN_sub {x y : Float} (hx : x.isNaN = false) (hy : y.isNaN = false)
    (hfinite : x.isFinite = true ∨ y.isFinite = true) : (x - y).isNaN = false := by
  change x.toModel.unpack.isNaN = false at hx
  change y.toModel.unpack.isNaN = false at hy
  change x.toModel.unpack.isFinite = true ∨ y.toModel.unpack.isFinite = true at hfinite
  change (Float.Model.pack (.sub .binary64 x.toModel.unpack y.toModel.unpack)).isNaN = false
  rw [isNaN_pack]
  generalize x.toModel.unpack = u at *
  generalize y.toModel.unpack = v at *
  cases u with
  | notANumber => cases hx
  | infinity s =>
    cases v with
    | notANumber => cases hy
    | infinity s' => rcases hfinite with h | h <;> cases h
    | zero s' => rfl
    | finite s' m' e' hm' => rfl
  | zero s =>
    cases v with
    | notANumber => cases hy
    | infinity s' => rfl
    | zero s' =>
      dsimp only [UnpackedFloat.sub]
      split <;> rfl
    | finite s' m' e' hm' => rfl
  | finite s m e hm =>
    cases v with
    | notANumber => cases hy
    | infinity s' => rfl
    | zero s' => rfl
    | finite s' m' e' hm' => exact isNaN_normalize _ _ _

/-- The number is finite and not zero. -/
def IsProper (x : Float) : Prop := x.isFinite = true ∧ (x == 0.0) = false

instance (x : Float) : Decidable (IsProper x) := inferInstanceAs (Decidable (_ ∧ _))

theorem IsProper.exists_unpack {x : Float} (h : IsProper x) :
    ∃ s m e hm, x.toModel.unpack = .finite s m e hm := by
  obtain ⟨hfinite, hzero⟩ := h
  change x.toModel.unpack.isFinite = true at hfinite
  change x.toModel.unpack.beq (.zero .positive) = false at hzero
  generalize x.toModel.unpack = u at *
  cases u with
  | infinity s => cases hfinite
  | notANumber => cases hfinite
  | zero s => cases hzero
  | finite s m e hm => exact ⟨s, m, e, hm, rfl⟩

theorem isNaN_div {x y : Float} (hx : x.isNaN = false) (hy : IsProper y) :
    (x / y).isNaN = false := by
  obtain ⟨s, m, e, hm, hy⟩ := hy.exists_unpack
  change x.toModel.unpack.isNaN = false at hx
  change (Float.Model.pack (.div .binary64 x.toModel.unpack y.toModel.unpack)).isNaN = false
  rw [isNaN_pack, hy]
  generalize x.toModel.unpack = u at *
  cases u with
  | notANumber => cases hx
  | infinity s' => rfl
  | zero s' => rfl
  | finite s' m' e' hm' => exact isNaN_roundWithAccuracy _ _ _ _

theorem isNaN_mul {x y : Float} (hx : x.isNaN = false) (hy : IsProper y) :
    (x * y).isNaN = false := by
  obtain ⟨s, m, e, hm, hy⟩ := hy.exists_unpack
  change x.toModel.unpack.isNaN = false at hx
  change (Float.Model.pack (.mul .binary64 x.toModel.unpack y.toModel.unpack)).isNaN = false
  rw [isNaN_pack, hy]
  generalize x.toModel.unpack = u at *
  cases u with
  | notANumber => cases hx
  | infinity s' => rfl
  | zero s' => rfl
  | finite s' m' e' hm' => exact isNaN_roundWithAccuracy _ _ _ _

/-- The powers of ten with which short numbers are read. -/
theorem isProper_of_mem_powers : ∀ x ∈ Float.exactlyRepresentablePowersOfTen, IsProper x := by
  decide

/-- A short number is read by one operation with a power of ten, any other by rounding once. -/
theorem ofScientific_cases (m : Nat) (negative : Bool) (e : Nat) :
    (∃ x ∈ Float.exactlyRepresentablePowersOfTen,
      Float.ofScientific m negative e = m.toUInt64.toFloat / x ∨
        Float.ofScientific m negative e = m.toUInt64.toFloat * x) ∨
    ∃ exponent, Float.ofScientific m negative e =
      .ofModel (.pack (.ofScientific .binary64 m exponent)) := by
  unfold Float.ofScientific
  split
  next hshort =>
    have hlt : e < Float.exactlyRepresentablePowersOfTen.size := Nat.lt_succ_of_le hshort.2
    refine Or.inl ⟨_, Array.getElem_mem hlt, ?_⟩
    dsimp only
    split
    · exact Or.inl rfl
    · exact Or.inr rfl
  · exact Or.inr ⟨_, rfl⟩

/-- What is rounded once is positive; it may be out of range. -/
theorem unpacked_ofScientific_cases (m : Nat) (e : Int) :
    UnpackedFloat.ofScientific .binary64 m e = .zero .positive ∨
      UnpackedFloat.ofScientific .binary64 m e = .infinity .positive ∨
      ∃ m' e' a, UnpackedFloat.ofScientific .binary64 m e =
        .roundWithAccuracy .binary64 .positive m' e' a := by
  unfold UnpackedFloat.ofScientific
  split
  · exact Or.inl rfl
  · split
    · exact Or.inr (Or.inl rfl)
    · split
      · exact Or.inl rfl
      · split
        · exact Or.inr (Or.inr ⟨_, _, _, rfl⟩)
        · exact Or.inr (Or.inr ⟨_, _, _, rfl⟩)

theorem isNaN_ofScientific (m : Nat) (negative : Bool) (e : Nat) :
    (Float.ofScientific m negative e).isNaN = false := by
  have hint : m.toUInt64.toFloat.isNaN = false := (isNaN_pack _).trans (isNaN_normalize _ _ _)
  obtain ⟨x, hx, heq | heq⟩ | ⟨exponent, heq⟩ := ofScientific_cases m negative e
  · rw [heq]
    exact isNaN_div hint (isProper_of_mem_powers x hx)
  · rw [heq]
    exact isNaN_mul hint (isProper_of_mem_powers x hx)
  · rw [heq]
    refine (isNaN_pack _).trans ?_
    obtain hu | hu | ⟨m', e', a, hu⟩ := unpacked_ofScientific_cases m exponent
    · rw [hu]
      rfl
    · rw [hu]
      rfl
    · rw [hu]
      exact isNaN_roundWithAccuracy _ _ _ _

/-! ## Reading and rounding -/

theorem isNaN_nearestFloat (n : Nat) (exponent : Int) :
    (nearestFloat n exponent).isNaN = false := by
  unfold nearestFloat
  split
  · decide
  · dsimp only
    split
    · decide
    · split
      · decide
      · split
        · exact isNaN_ofScientific _ _ _
        · exact isNaN_ofScientific _ _ _

/-- An unsigned decimal is read as a number. -/
theorem isNaN_of_unsigned? {t : Text} {x : Float} (h : unsigned? t = some x) :
    x.isNaN = false := by
  have hmap : ∀ {e : Option Int} {n k : Nat},
      (e.map fun e => nearestFloat n (e - k)) = some x → x.isNaN = false := by
    intro e n k heq
    obtain ⟨e, -, rfl⟩ := Option.map_eq_some_iff.mp heq
    exact isNaN_nearestFloat _ _
  unfold unsigned? at h
  dsimp only at h
  -- the first split is between a fraction and none
  split at h
  all_goals
    split at h
    · cases h
    · split at h
      · obtain rfl := Option.some.inj h
        exact isNaN_nearestFloat _ _
      · split at h
        · exact hmap h
        · cases h

theorem isNaN_withSign (x y : Float) : (withSign x y).isNaN = x.isNaN := by
  unfold withSign
  split
  · exact isNaN_neg x
  · rfl

/-- Rounding makes no non-number. -/
theorem isNaN_roundToCents {x : Float} (hx : x.isNaN = false) :
    (roundToCents x).isNaN = false := by
  unfold roundToCents
  split
  · exact hx
  · split
    · exact hx
    · rw [isNaN_withSign]
      exact isNaN_div (isNaN_ofScientific _ _ _) (by decide)

end LeadingTrim.Decimal

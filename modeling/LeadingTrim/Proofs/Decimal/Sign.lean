/-
# Signs

The sign bit of a double is the sign of what it unpacks to (`signBit_eq`), and packing keeps signs
(`signOf_unpack_pack`). Quotients and products of positive numbers are positive, and so are numbers
that are converted or read. So rounding keeps the sign bit of every number (`signBit_roundToCents`),
that of zeros included.
-/

import LeadingTrim.Proofs.Decimal.Finite

namespace LeadingTrim.Decimal

open Float.Model (UnpackedFloat)
open Float.Model.Format (binary64)
open Float.Model.UnpackedFloat (Accuracy Sign unpackSign)

/-- The sign of a number. A non-number has the sign with which it is packed. -/
def signOf : UnpackedFloat → Sign
  | .notANumber => .positive
  | .infinity s => s
  | .zero s => s
  | .finite s _ _ _ => s

/-! ## Packing -/

theorem toNat_unpackSign (b : BitVec binary64.numBits) :
    (unpackSign b).toNat = b.toNat / Nat.pow 2 63 := by
  have hlt : b.toNat < 2 ^ 64 := b.isLt
  have hone : b.toNat / Nat.pow 2 63 < 2 := by
    change b.toNat / 2 ^ 63 < 2
    omega
  have hmod : (unpackSign b).toNat = b.toNat / Nat.pow 2 63 % 2 := by
    simp [unpackSign, Nat.shiftRight_eq_div_pow]
  rw [hmod, Nat.mod_eq_of_lt hone]

theorem unpackSign_pack (u : UnpackedFloat) :
    unpackSign (UnpackedFloat.pack binary64 u) = (signOf u).toBitVec := by
  fun_cases UnpackedFloat.pack <;> exact UnpackedFloat.unpackSign_packComponents _ _ _

/-- Packing what was unpacked gives the number back. -/
theorem ofModel_pack_unpack (x : Float) : Float.ofModel (.pack x.toModel.unpack) = x := by
  obtain ⟨⟨bits, hvalid⟩⟩ := x
  have hbits : UnpackedFloat.pack binary64 (.unpack binary64 bits.toBitVec) = bits.toBitVec :=
    UnpackedFloat.pack_unpack_of_valid hvalid
  simp only [Float.Model.pack, Float.Model.unpack, hbits]

theorem signBit_pack (u : UnpackedFloat) :
    signBit (.ofModel (.pack u)) = (signOf u == .negative) := by
  have hbit := toNat_unpackSign (UnpackedFloat.pack binary64 u)
  rw [unpackSign_pack] at hbit
  change decide ((UnpackedFloat.pack binary64 u).toNat / Nat.pow 2 63 = 1) = _
  rw [← hbit]
  cases signOf u <;> rfl

/-- The sign bit is set for what is negative. -/
theorem signBit_eq (x : Float) : signBit x = (signOf x.toModel.unpack == .negative) := by
  have hpack := signBit_pack x.toModel.unpack
  rwa [ofModel_pack_unpack] at hpack

theorem eq_of_beq_negative {s s' : Sign} (h : (s == .negative) = (s' == .negative)) : s = s' := by
  cases s with
  | negative =>
    cases s' with
    | negative => rfl
    | positive => exact absurd h (by decide)
  | positive =>
    cases s' with
    | negative => exact absurd h (by decide)
    | positive => rfl

theorem signOf_unpack_pack (u : UnpackedFloat) :
    signOf (Float.Model.pack u).unpack = signOf u := by
  -- both are told by the sign bit of the packed number
  have hbit : (signOf u == .negative) = (signOf (Float.Model.pack u).unpack == .negative) :=
    (signBit_pack u).symm.trans (signBit_eq (.ofModel (.pack u)))
  exact (eq_of_beq_negative hbit).symm

theorem signBit_abs (x : Float) : signBit x.abs = false := by
  have habs : signBit x.abs = (signOf x.toModel.unpack.abs == .negative) := signBit_pack _
  rw [habs]
  cases x.toModel.unpack <;> rfl

/-- Negation turns the sign around. -/
theorem signBit_neg {x : Float} (hx : x.isNaN = false) : signBit (-x) = !signBit x := by
  have hneg : signBit (-x) = (signOf x.toModel.unpack.neg == .negative) := signBit_pack _
  change x.toModel.unpack.isNaN = false at hx
  rw [hneg, signBit_eq]
  generalize x.toModel.unpack = u at *
  cases u with
  | notANumber => cases hx
  | infinity s => cases s <;> rfl
  | zero s => cases s <;> rfl
  | finite s m e hm => cases s <;> rfl

/-! ## Positive numbers -/

theorem signOf_roundWithAccuracy (s : Sign) (m : Nat) (e : Int) (a : Accuracy) :
    signOf (UnpackedFloat.roundWithAccuracy binary64 s m e a) = s := by
  unfold UnpackedFloat.roundWithAccuracy
  dsimp only
  split <;> rfl

theorem signOf_normalize (n : Nat) :
    signOf (UnpackedFloat.normalize binary64 n 0 .positive) = .positive := by
  unfold UnpackedFloat.normalize
  split
  next hneg => exact absurd (Int.compare_eq_lt.mp hneg) (by omega)
  · rfl
  · exact signOf_roundWithAccuracy _ _ _ _

/-- If one of the two is a non-number, so is the result, and that counts as positive. -/
theorem signOf_div {u v : UnpackedFloat} (hu : signOf u = .positive) (hv : signOf v = .positive) :
    signOf (.div binary64 u v) = .positive := by
  cases u with
  | notANumber => rfl
  | infinity s =>
    cases hu
    cases v <;> cases hv <;> rfl
  | zero s =>
    cases hu
    cases v <;> cases hv <;> rfl
  | finite s m e hm =>
    cases hu
    cases v with
    | notANumber => rfl
    | infinity s' =>
      cases hv
      rfl
    | zero s' =>
      cases hv
      rfl
    | finite s' m' e' hm' =>
      cases hv
      exact signOf_roundWithAccuracy _ _ _ _

theorem signOf_mul {u v : UnpackedFloat} (hu : signOf u = .positive) (hv : signOf v = .positive) :
    signOf (.mul binary64 u v) = .positive := by
  cases u with
  | notANumber => rfl
  | infinity s =>
    cases hu
    cases v <;> cases hv <;> rfl
  | zero s =>
    cases hu
    cases v <;> cases hv <;> rfl
  | finite s m e hm =>
    cases hu
    cases v with
    | notANumber => rfl
    | infinity s' =>
      cases hv
      rfl
    | zero s' =>
      cases hv
      rfl
    | finite s' m' e' hm' =>
      cases hv
      exact signOf_roundWithAccuracy _ _ _ _

/-- A float that is positive. -/
def IsPositive (x : Float) : Prop := signOf x.toModel.unpack = .positive

theorem isPositive_iff {x : Float} : IsPositive x ↔ signBit x = false := by
  rw [IsPositive, signBit_eq]
  cases signOf x.toModel.unpack with
  | negative => exact iff_of_false nofun nofun
  | positive => exact iff_of_true rfl rfl

theorem IsPositive.div {x y : Float} (hx : IsPositive x) (hy : IsPositive y) :
    IsPositive (x / y) :=
  (signOf_unpack_pack _).trans (signOf_div hx hy)

theorem IsPositive.mul {x y : Float} (hx : IsPositive x) (hy : IsPositive y) :
    IsPositive (x * y) :=
  (signOf_unpack_pack _).trans (signOf_mul hx hy)

/-- The powers of ten with which short numbers are read. -/
theorem isPositive_of_mem_powers :
    ∀ x ∈ Float.exactlyRepresentablePowersOfTen, IsPositive x := by
  simp only [isPositive_iff]
  decide

theorem isPositive_ofScientific (m : Nat) (negative : Bool) (e : Nat) :
    IsPositive (Float.ofScientific m negative e) := by
  have hint : IsPositive m.toUInt64.toFloat := (signOf_unpack_pack _).trans (signOf_normalize _)
  obtain ⟨x, hx, heq | heq⟩ | ⟨exponent, heq⟩ := ofScientific_cases m negative e
  · rw [heq]
    exact hint.div (isPositive_of_mem_powers x hx)
  · rw [heq]
    exact hint.mul (isPositive_of_mem_powers x hx)
  · rw [heq]
    refine (signOf_unpack_pack _).trans ?_
    obtain hu | hu | ⟨m', e', a, hu⟩ := unpacked_ofScientific_cases m exponent
    · rw [hu]
      rfl
    · rw [hu]
      rfl
    · rw [hu]
      exact signOf_roundWithAccuracy _ _ _ _

/-! ## Rounding -/

/-- A positive number takes over the sign. -/
theorem signBit_withSign {x : Float} (hx : IsPositive x) (hnan : x.isNaN = false) (y : Float) :
    signBit (withSign x y) = signBit y := by
  have hpositive := isPositive_iff.mp hx
  unfold withSign
  split
  next hsign => rw [signBit_neg hnan, hpositive, hsign, Bool.not_false]
  next hsign => rw [hpositive, Bool.eq_false_iff.mpr hsign]

/-- Rounding keeps the sign. -/
theorem signBit_roundToCents (x : Float) : signBit (roundToCents x) = signBit x := by
  unfold roundToCents
  split
  · rfl
  · split
    · rfl
    · refine signBit_withSign ?_ (isNaN_div (isNaN_ofScientific _ _ _) (by decide)) x
      exact (isPositive_ofScientific _ _ _).div (isPositive_iff.mpr (by decide))

end LeadingTrim.Decimal

/-
# Numbers that are written are read again

The digits of a number are read back one by one, the lowest first (`decodeDigits_digits`), so the
numbers that are written one behind the other are read as these numbers (`decode_encode`), as long
as none of them has more than 62 bits. Differences of 32-bit words are that small, and moving the
one word by the difference gives the other (`advance_difference`).
-/

import LeadingTrim.SourceMap.Writer
import Mathlib.Tactic.Ring

namespace LeadingTrim.SourceMap

/-! ## Digits -/

namespace Base64

theorem charOf_mem (digit : Nat) : charOf digit ∈ alphabet := by
  unfold charOf
  rw [List.getD_eq_getElem?_getD]
  cases h : alphabet[digit]? with
  | none => decide
  | some c => exact List.mem_of_getElem? h

/-- The characters of the alphabet stand for different digits. -/
theorem digit?_charOf : ∀ digit < 64, digit? (charOf digit) = some digit := by
  decide +kernel

end Base64

namespace Vlq

theorem digitsOf_charOf {digit : Nat} (h : digit < 64) :
    digitsOf (Base64.charOf digit) = [(digit % 32, decide (32 ≤ digit))] := by
  rw [digitsOf, Base64.digit?_charOf digit h]

theorem lt_of_mem_digits {n d : Nat} (h : d ∈ digits n) : d < 64 := by
  induction n using Nat.strongRecOn with
  | ind n ih =>
    rw [digits] at h
    split at h
    · rw [List.mem_singleton] at h
      omega
    · rcases List.mem_cons.mp h with rfl | h
      · omega
      · exact ih (n / 32) (by omega) h

theorem digits_ne_nil (n : Nat) : digits n ≠ [] := by
  rw [digits]
  split
  · exact List.cons_ne_nil _ _
  · exact List.cons_ne_nil _ _

/-- The digits that stand for a digit that is written. -/
theorem flatMap_digitsOf {l : List Nat} (h : ∀ d ∈ l, d < 64) :
    (l.map Base64.charOf).flatMap digitsOf = l.map fun d => (d % 32, decide (32 ≤ d)) := by
  induction l with
  | nil => rfl
  | cons d l ih =>
    obtain ⟨hd, hl⟩ := List.forall_mem_cons.mp h
    rw [List.map_cons, List.flatMap_cons, digitsOf_charOf hd, ih hl]
    rfl

/-- A number with its sign as the lowest bit is had back. -/
theorem unsigned_signed {n : Int} (h : n.natAbs < Nat.pow 2 62) : unsigned (signed n) = n := by
  have hhalf : ∀ {k : Nat}, k < Nat.pow 2 63 →
      unsigned k = if k % 2 = 1 then -((k : Int) / 2) else (k : Int) / 2 := by
    intro k hk
    rw [unsigned, if_pos hk]
  have hbound : Nat.pow 2 63 = 2 * Nat.pow 2 62 := rfl
  unfold signed
  split
  · rw [hhalf (by omega), if_pos (by omega)]
    omega
  · rw [hhalf (by omega), if_neg (by omega)]
    omega

/-- The digits of a number are read, whatever has been read of it before. -/
theorem decodeDigits_digits {m n place : Nat} (rest : List (Nat × Bool)) (hplace : place < 64)
    (hm : m + n * Nat.pow 2 place < Nat.pow 2 63) :
    decodeDigits m place (((digits n).map fun d => (d % 32, decide (32 ≤ d))) ++ rest) =
      (decodeDigits 0 0 rest).map (unsigned (m + n * Nat.pow 2 place) :: ·) := by
  induction n using Nat.strongRecOn generalizing m place with
  | ind n ih =>
    have hword : Nat.pow 2 63 < Nat.pow 2 64 := by decide
    rw [digits]
    split
    next hn =>
      rw [List.map_singleton, List.singleton_append, decodeDigits, if_neg (by omega)]
      dsimp only
      rw [Nat.mod_eq_of_lt hn, Nat.mod_eq_of_lt (Nat.lt_trans hm hword),
        if_neg (by simpa using hn)]
    next hn =>
      have hpow : Nat.pow 2 (place + 5) = 32 * Nat.pow 2 place := by
        show 2 ^ (place + 5) = 32 * 2 ^ place
        ring
      -- the digit and what is behind it make up the number
      have hsplit : m + n % 32 * Nat.pow 2 place + n / 32 * Nat.pow 2 (place + 5) =
          m + n * Nat.pow 2 place := by
        have hall : n = n % 32 + n / 32 * 32 := (Nat.mod_add_div' n 32).symm
        conv => rhs; rw [hall]
        rw [hpow]
        ring
      have hbehind : place + 5 < 64 := by
        by_contra hlarge
        have hle : 1 * Nat.pow 2 64 ≤ n / 32 * Nat.pow 2 (place + 5) :=
          Nat.mul_le_mul (by omega) (Nat.pow_le_pow_right (by omega) (by omega))
        omega
      have hdigit : (n % 32 + 32) % 32 = n % 32 := by omega
      have hnext : m + n % 32 * Nat.pow 2 place < Nat.pow 2 64 := by omega
      rw [List.map_cons, List.cons_append, decodeDigits, if_neg (by omega)]
      dsimp only
      rw [hdigit, Nat.mod_eq_of_lt hnext, if_pos (by simp),
        ih (n / 32) (by omega) hbehind (by omega), hsplit]

/-- The numbers that are written one behind the other are read. -/
theorem decode_encode {ns : List Int} (h : ∀ n ∈ ns, n.natAbs < Nat.pow 2 62) :
    decode (ns.flatMap encode) = .ok ns := by
  induction ns with
  | nil => rfl
  | cons n ns ih =>
    obtain ⟨hn, hns⟩ := List.forall_mem_cons.mp h
    have hsigned : signed n < Nat.pow 2 63 := by
      have : Nat.pow 2 63 = 2 * Nat.pow 2 62 := rfl
      unfold signed
      split <;> omega
    have hrest := ih hns
    unfold decode at hrest ⊢
    rw [List.flatMap_cons, List.flatMap_append, encode,
      flatMap_digitsOf fun d hd => lt_of_mem_digits hd,
      decodeDigits_digits _ (by omega) (by simpa using hsigned), hrest]
    simp [Except.map, unsigned_signed hn]

theorem mem_alphabet_of_mem_encode {n : Int} {c : Char} (h : c ∈ encode n) :
    c ∈ Base64.alphabet := by
  obtain ⟨d, -, rfl⟩ := List.mem_map.mp h
  exact Base64.charOf_mem d

theorem encode_ne_nil (n : Int) : encode n ≠ [] := by
  simp [encode, digits_ne_nil]

end Vlq

/-! ## Words -/

/-- A word that is moved by its difference from another is that one. -/
theorem advance_difference {new : Nat} (h : new < wordBound) (old : Nat) :
    advance old (Int.ofNat new - Int.ofNat old) = new := by
  have hsum : Int.ofNat old + (Int.ofNat new - Int.ofNat old) = (new : Int) := by
    simp only [Int.ofNat_eq_natCast]
    omega
  rw [advance, hsum, Int.emod_eq_of_lt (by omega) (by exact_mod_cast h)]
  rfl

theorem natAbs_difference {new old : Nat} (hnew : new < wordBound) (hold : old < wordBound) :
    (Int.ofNat new - Int.ofNat old).natAbs < Nat.pow 2 62 := by
  have hbound : wordBound < Nat.pow 2 62 := by decide
  simp only [Int.ofNat_eq_natCast]
  omega

end LeadingTrim.SourceMap

import Mathlib.Algebra.Ring.Int.Defs
import Mathlib.Algebra.Ring.Nat
import SchemaWire.Wire.Varint
/-!
# Zigzag

Zigzag numbers the signed integers by magnitude.

* `Varint.unzigzag_zigzag` and `Varint.zigzag_unzigzag` say that it is a bijection between the
  signed and the unsigned words: the sign goes to the lowest bit and the other bits are flipped where
  it is set.
* `Varint.toNat_zigzag` is the number of an integer, and `Varint.zigzag_lt_two_pow_iff` says how
  many bits it takes: as many as the integer takes in two's complement.
-/

namespace SchemaWire

namespace Varint

theorem getLsbD_fill_of_lt {b : Bool} {k : Nat} (hk : k < 64) :
    (BitVec.fill 64 b).getLsbD k = b := by
  rw [BitVec.getLsbD_fill, decide_eq_true hk, Bool.and_true]

/-- An arithmetic shift by all places but one leaves copies of the sign. -/
theorem sshiftRight_last (x : BitVec 64) : x.sshiftRight 63 = BitVec.fill 64 x.msb := by
  -- Bit by bit: every position is filled from the sign.
  apply BitVec.eq_of_getLsbD_eq
  intro k hk
  have hmsb : x.msb = x.getLsbD 63 := BitVec.msb_eq_getLsbD_last x
  rw [BitVec.getLsbD_sshiftRight, getLsbD_fill_of_lt hk]
  by_cases h0 : k = 0
  · subst h0
    simp [hmsb]
  · have hover : ¬ 63 + k < 64 := by omega
    simp [hover, hk]

/-- The lowest bit alone, negated, leaves copies of that bit. -/
theorem neg_and_one (x : BitVec 64) : -(x &&& 1#64) = BitVec.fill 64 (x.getLsbD 0) := by
  rw [BitVec.and_one_eq_setWidth_ofBool_getLsbD]
  cases x.getLsbD 0 <;> rfl

theorem toBitVec_zigzag (i : Int64) :
    (zigzag i).toBitVec = i.toBitVec <<< 1 ^^^ BitVec.fill 64 i.toBitVec.msb := by
  rw [← sshiftRight_last]
  rfl

theorem toBitVec_unzigzag (u : UInt64) :
    (unzigzag u).toBitVec = u.toBitVec >>> 1 ^^^ BitVec.fill 64 (u.toBitVec.getLsbD 0) := by
  rw [← neg_and_one]
  rfl

/-- A signed integer is read back from its number. -/
theorem unzigzag_zigzag (i : Int64) : unzigzag (zigzag i) = i := by
  apply Int64.toBitVec_inj.1
  rw [toBitVec_unzigzag, toBitVec_zigzag]
  generalize i.toBitVec = x
  -- The lowest bit of a zigzag word is the sign of the number.
  have hsign : (x <<< 1 ^^^ BitVec.fill 64 x.msb).getLsbD 0 = x.msb := by
    rw [BitVec.getLsbD_xor, getLsbD_fill_of_lt (by decide)]
    simp
  rw [hsign]
  apply BitVec.eq_of_getLsbD_eq
  intro k hk
  rw [BitVec.getLsbD_xor, BitVec.getLsbD_ushiftRight, BitVec.getLsbD_xor, getLsbD_fill_of_lt hk]
  -- Below the last bit the shifts meet again; the last one is the sign itself.
  by_cases hlast : 1 + k < 64
  · rw [getLsbD_fill_of_lt hlast, BitVec.getLsbD_shiftLeft]
    simp [hlast]
  · obtain rfl : k = 63 := by omega
    rw [BitVec.getLsbD_of_ge (BitVec.fill 64 _) _ (by omega), BitVec.getLsbD_shiftLeft,
      BitVec.msb_eq_getLsbD_last]
    simp

/-- Every word is the number of the integer that it stands for. -/
theorem zigzag_unzigzag (u : UInt64) : zigzag (unzigzag u) = u := by
  apply UInt64.toBitVec_inj.1
  rw [toBitVec_zigzag, toBitVec_unzigzag]
  generalize u.toBitVec = x
  -- The sign of what comes back is the lowest bit of the word.
  have hsign : (x >>> 1 ^^^ BitVec.fill 64 (x.getLsbD 0)).msb = x.getLsbD 0 := by
    rw [BitVec.msb_eq_getLsbD_last, BitVec.getLsbD_xor, getLsbD_fill_of_lt (by decide)]
    simp
  rw [hsign]
  apply BitVec.eq_of_getLsbD_eq
  intro k hk
  rw [BitVec.getLsbD_xor, BitVec.getLsbD_shiftLeft, getLsbD_fill_of_lt hk]
  -- The lowest bit has been shifted out and comes back as the sign.
  by_cases h0 : k = 0
  · subst h0
    simp
  · have hback : 1 + (k - 1) = k := by omega
    rw [BitVec.getLsbD_xor, BitVec.getLsbD_ushiftRight, getLsbD_fill_of_lt (by omega), hback]
    simp [hk, h0]

/-! ### How large the numbers are -/

/-- **Zigzag numbers by magnitude**: the integers from zero on have the even numbers, the negative
ones the odd numbers. -/
theorem toNat_zigzag (i : Int64) :
    ((zigzag i).toNat : Int) = if 0 ≤ i.toInt then 2 * i.toInt else -2 * i.toInt - 1 := by
  rw [← UInt64.toNat_toBitVec, toBitVec_zigzag, ← Int64.toInt_toBitVec, BitVec.toInt_eq_msb_cond]
  generalize i.toBitVec = x
  have hword : x.toNat < 2 ^ 64 := x.isLt
  cases hsign : x.msb with
  | false =>
    -- Nothing is flipped, and the bit that is shifted out is zero.
    have hlow : 2 * x.toNat < 2 ^ 64 := BitVec.msb_eq_false_iff_two_mul_lt.1 hsign
    rw [BitVec.fill_false, BitVec.xor_zero, BitVec.toNat_shiftLeft, Nat.shiftLeft_eq]
    simp only [Bool.false_eq_true, if_false]
    omega
  | true =>
    -- The sign is shifted out, and all other bits are flipped.
    have hhigh : 2 ^ 64 ≤ 2 * x.toNat := BitVec.msb_eq_true_iff_two_mul_ge.1 hsign
    rw [BitVec.fill_true, BitVec.xor_allOnes, BitVec.toNat_not, BitVec.toNat_shiftLeft,
      Nat.shiftLeft_eq]
    simp only [if_true]
    omega

/-- **Bits that an integer takes**: its number fits as many bits as the integer itself takes in
two's complement. -/
theorem zigzag_lt_two_pow_iff {n : Nat} (hn : 1 ≤ n) (i : Int64) :
    (zigzag i).toNat < 2 ^ n ↔ -2 ^ (n - 1) ≤ i.toInt ∧ i.toInt < 2 ^ (n - 1) := by
  have hnumber := toNat_zigzag i
  obtain ⟨m, rfl⟩ := Nat.exists_eq_add_of_le' hn
  have hcast : (2 : Int) ^ m = (2 ^ m : Nat) := (Int.natCast_pow 2 m).symm
  rw [Nat.add_sub_cancel, Nat.pow_succ, hcast]
  -- Twice the integer, or twice its negative less one, lies below twice the bound.
  split at hnumber <;> omega

end Varint

end SchemaWire

import Mathlib.Algebra.Ring.Nat
import SchemaWire.Scalar
/-!
# Scalars and their numbers

`Scalar.toBits` and `ScalarKind.ofBits` undo each other. Every scalar is read back from its number
(`ScalarKind.ofBits_toBits`); of the numbers of a width, those that stand for nothing are refused,
and all others are the numbers of what is read from them (`ScalarKind.toBits_of_ofBits`).
-/

namespace SchemaWire

namespace ScalarKind

/-- The fixed-width form of a scalar fits the width of its kind. -/
theorem toBits_lt (s : Scalar) : s.toBits < 256 ^ s.kind.width := by
  obtain ⟨k, v⟩ := s
  cases k
  -- Booleans are 0 or 1, all others are words of their width.
  case bool => cases v <;> decide
  case char | i32 | u32 | f32 => exact UInt32.toNat_lt _
  case i8 | u8 => exact UInt8.toNat_lt _
  case i16 | u16 => exact UInt16.toNat_lt _
  case i64 | u64 | f64 => exact UInt64.toNat_lt _

/-- A scalar is read back from its fixed-width form. -/
theorem ofBits_toBits (s : Scalar) : s.kind.ofBits s.toBits = .ok s := by
  obtain ⟨k, v⟩ := s
  cases k
  case bool => cases v <;> rfl
  -- The bits of a character are a valid code point.
  case char =>
    have h : v.toNat.isValidChar := v.valid
    exact dif_pos h
  all_goals simp [ofBits, Scalar.toBits]

/-- What is read from a number of the right width is written as that number. -/
theorem toBits_of_ofBits {k : ScalarKind} {n : Nat} {s : Scalar} (hn : n < 256 ^ k.width)
    (h : k.ofBits n = .ok s) : s.kind = k ∧ s.toBits = n := by
  -- Booleans and characters have bits that spell nothing; all others are read back from their
  -- residue.
  cases k
  case bool =>
    match n, h with
    | 0, h => cases h; exact ⟨rfl, rfl⟩
    | 1, h => cases h; exact ⟨rfl, rfl⟩
    | n + 2, h => cases h
  case char =>
    by_cases hv : n.isValidChar
    · rw [ofBits, dif_pos hv] at h
      cases h
      exact ⟨rfl, rfl⟩
    · rw [ofBits, dif_neg hv] at h
      cases h
  all_goals
    cases h
    refine ⟨rfl, ?_⟩
    simp only [width] at hn
    simp [Scalar.toBits]
    omega

end ScalarKind

end SchemaWire

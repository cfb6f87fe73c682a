/-!
# Varints and zigzag

A **varint** writes a 64-bit word in groups of seven bits, lowest group first, one group to a
byte; the highest bit of a byte says that another group follows. `Varint.size` is the number of
groups, one for every seven significant bits begun and at least one, and `Varint.encode` writes
exactly that many (`Varint.length_encode`), so a word is written in between one and ten bytes
(`Varint.size_pos`, `Varint.size_le`).

Signed integers go through **zigzag**, which numbers them by magnitude (0, -1, 1, -2, 2, …), so
that small integers of either sign are short.
-/

namespace SchemaWire

namespace Varint

/-- The most bytes that a varint can take. -/
def maxSize : Nat := 10

/-- How many bytes the varint of a word takes. -/
def size (u : UInt64) : Nat := u.toNat.log2 / 7 + 1

/-- The lowest seven bits of a word. -/
def lowGroup (u : UInt64) : UInt8 := (u &&& 0x7f).toUInt8

/-- The lowest `n` groups of a word, each but the last marked as having a successor. -/
def groups : Nat → UInt64 → List UInt8
  | 0, _ => []
  | 1, u => [lowGroup u]
  | n + 2, u => (lowGroup u ||| 0x80) :: groups (n + 1) (u >>> 7)

/-- The varint of a word. -/
def encode (u : UInt64) : List UInt8 := groups (size u) u

@[simp] theorem length_groups (n : Nat) (u : UInt64) : (groups n u).length = n := by
  fun_induction groups n u <;> simp_all

@[simp] theorem length_encode (u : UInt64) : (encode u).length = size u := length_groups _ _

theorem size_pos (u : UInt64) : 0 < size u := Nat.succ_pos _

theorem size_le (u : UInt64) : size u ≤ maxSize := by
  have h : u.toNat.log2 < 64 := by
    by_cases h0 : u.toNat = 0
    · simp [h0]
    · exact (Nat.log2_lt h0).2 u.toNat_lt
  unfold size maxSize
  omega

/-- The word that stands for a signed integer. -/
def zigzag (i : Int64) : UInt64 := ((i <<< 1) ^^^ (i >>> 63)).toUInt64

/-- The signed integer that a word stands for. -/
def unzigzag (u : UInt64) : Int64 := (u >>> 1).toInt64 ^^^ -(u &&& 1).toInt64

end Varint

end SchemaWire

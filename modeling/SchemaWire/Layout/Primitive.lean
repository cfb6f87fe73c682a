import SchemaWire.Value
import SchemaWire.TypeExpr
import SchemaWire.Wire.Reader
/-!
# Primitive layouts

A `Primitive` lays out one scalar. It comes bare or **wrapped**: the two take and produce
different values, `Value.scalar` and `Value.wrapped`, and write the same bytes. An integer may
have a **variable length**, which makes it a varint in the formats that have varint integers;
other kinds never have one (`Primitive.isInteger_of_varLength`).

* `Scalar.toWord` and `ScalarKind.ofWord` are the two directions between an integer and the word
  that its varint writes down. Unsigned kinds are bounded by the number of bits that are read,
  signed kinds by a check of the range after zigzag is undone.
* `Primitive.script` and `Primitive.decode` write and read one scalar.
-/

namespace SchemaWire

namespace ScalarKind

/-- Whether a signed kind can hold an integer. -/
def holds (k : ScalarKind) (i : Int64) : Bool :=
  decide (-(1 <<< (k.bits - 1) : Int) ≤ i.toInt ∧ i.toInt < (1 <<< (k.bits - 1) : Int))

/-- The number of bits that the varint of a kind has to fit. Signed kinds take the whole word and
are checked afterwards. -/
def varintBits (k : ScalarKind) : Nat := if k.isSigned then 64 else k.bits

/-- The integer that a varint of a kind stands for. -/
def ofWord (k : ScalarKind) (u : UInt64) : Except DecodeError Scalar :=
  let i := Varint.unzigzag u
  if k.isSigned && !k.holds i then .error (.integerOverflow k.name)
  else
    match k with
    | .i8 => .ok ⟨.i8, i.toInt8⟩
    | .i16 => .ok ⟨.i16, i.toInt16⟩
    | .i32 => .ok ⟨.i32, i.toInt32⟩
    | .i64 => .ok ⟨.i64, i⟩
    | k => k.ofBits u.toNat

end ScalarKind

/-- The word that the varint of an integer writes down. -/
def Scalar.toWord : Scalar → UInt64
  | ⟨.i8, n⟩ => Varint.zigzag n.toInt64
  | ⟨.i16, n⟩ => Varint.zigzag n.toInt64
  | ⟨.i32, n⟩ => Varint.zigzag n.toInt64
  | ⟨.i64, n⟩ => Varint.zigzag n
  | s => UInt64.ofNat s.toBits

/-- The layout of one scalar. -/
structure Primitive where
  kind : ScalarKind
  /-- The scalar is boxed in memory. -/
  wrapped : Bool
  /-- The scalar is a varint where the format allows it. -/
  varLength : Bool
  /-- Only integers have a variable length. -/
  isInteger_of_varLength : varLength = true → kind.isInteger = true
deriving DecidableEq

namespace Primitive

/-- The bare, fixed-width layout of a kind. -/
def ofKind (kind : ScalarKind) : Primitive := ⟨kind, false, false, nofun⟩

/-- The layout with a variable length or without one. Kinds other than integers stay as they
are. -/
def withVarLength (p : Primitive) (varLength : Bool) : Primitive :=
  ⟨p.kind, p.wrapped, varLength && p.kind.isInteger, fun h => (Bool.and_eq_true_iff.1 h).2⟩

/-- The wrapped sibling of a layout. -/
def ensureWrapped (p : Primitive) : Primitive := { p with wrapped := true }

/-- The bare sibling of a layout. -/
def unwrapped (p : Primitive) : Primitive := { p with wrapped := false }

/-- The type that the layout lays out. -/
def typeExpr (p : Primitive) : TypeExpr := if p.wrapped then .wrapped p.kind else .scalar p.kind

/-- The value that stands for an absent one. -/
def default (p : Primitive) : Value := if p.wrapped then .wrapped none else .scalar p.kind.zero

/-- A scalar in the form of the layout. -/
def box (p : Primitive) (s : Scalar) : Value := if p.wrapped then .wrapped (some s) else .scalar s

/-- The scalar in a value, if the value has the form of the layout. -/
def unbox (p : Primitive) (v : Value) : Except EncodeError Scalar :=
  let mismatch := EncodeError.typeMismatch p.typeExpr.describe v.describe
  match p.wrapped, v with
  | false, .scalar s => if s.kind = p.kind then .ok s else .error mismatch
  | true, .wrapped (some s) => if s.kind = p.kind then .ok s else .error mismatch
  | true, .wrapped none => .error (.nullValue p.typeExpr.describe)
  | _, _ => .error mismatch

/-- Whether the scalar is a varint under a format. -/
def isVarint (p : Primitive) (format : WireFormat) : Bool := p.varLength && format.varintIntegers

/-- The fewest bytes that the scalar takes under a format. -/
def minSize (p : Primitive) (format : WireFormat) : Nat :=
  if p.isVarint format then 1 else p.kind.width

/-- The step that writes a scalar under a format. -/
def step (p : Primitive) (format : WireFormat) (s : Scalar) : Step :=
  if p.isVarint format then .varint s.toWord else .fixed p.kind.width s.toBits

/-- The steps that write a value under a format. -/
def script (p : Primitive) (format : WireFormat) (v : Value) : Script :=
  match p.unbox v with
  | .ok s => [p.step format s]
  | .error e => [.fail e]

/-- Reads a value under a format. -/
def decode (p : Primitive) (format : WireFormat) : Decoder Value := do
  let s ←
    if p.isVarint format then do
      let u ← Reader.readVarint p.kind.varintBits
      ofExcept (p.kind.ofWord u)
    else do
      let n ← Reader.readFixed p.kind.width
      ofExcept (p.kind.ofBits n)
  return p.box s

end Primitive

end SchemaWire

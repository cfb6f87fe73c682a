/-!
# Wire levels and tag encodings

Two parties that exchange data agree beforehand on a **level** and on a **tag encoding**;
neither is ever written into the data.

* `Level` names a complete set of encoding choices, and `Level.format` spells them out as a
  `WireFormat`: the byte order of fixed-width numbers, whether lengths are varints, whether
  integers that ask for it are varints, and whether a nullable boolean is packed into one byte.
* `TagEncoding` says how the tag of a subtype is written, and with it which tags exist at all
  (`TagEncoding.maxTag`).

Both are selected by small integers (`Level.ofInt?`, `TagEncoding.ofInt?`), which are part of
the agreement; `Level.ofInt?_toInt` and `TagEncoding.ofInt?_toInt` say that each member is
reached by its own integer.
-/

namespace SchemaWire

/-- A schema version. Fields are only ever added at increasing versions. -/
abbrev Version := UInt32

/-- The name of a record type. A record value carries it, and subtypes are told apart by it. -/
abbrev TypeName := String

/-- The name of a closed group of record types. -/
abbrev GroupName := String

/-- The order in which the bytes of a fixed-width number are written. -/
inductive ByteOrder where
  | big
  | little
deriving DecidableEq, Repr

/-- The concrete encoding choices that a level stands for. -/
structure WireFormat where
  /-- The byte order of every fixed-width number. -/
  byteOrder : ByteOrder
  /-- Text lengths and list counts are varints, not fixed 32-bit numbers. -/
  varintLengths : Bool
  /-- Integers declared with a variable length are varints. -/
  varintIntegers : Bool
  /-- A nullable boolean is one byte: 0 for null, 1 for false, 2 for true. -/
  packedBooleans : Bool
deriving DecidableEq, Repr

/-- The wire level of a serializer, fixed when it is built. -/
inductive Level where
  | level1
  | level2
  | level3
  | level3Le
deriving DecidableEq, Repr

/-- How the tag of a subtype is written. -/
inductive TagEncoding where
  | u8
  | u16
  | varint
deriving DecidableEq, Repr

/-- An integer that names no member of an enumeration. -/
structure UnknownMember where
  enumeration : String
  int : UInt8
deriving DecidableEq, Repr

def UnknownMember.message (e : UnknownMember) : String :=
  s!"Unknown {e.enumeration} {e.int.toNat}"

namespace ByteOrder

def name : ByteOrder → String
  | .big => "Big"
  | .little => "Little"

end ByteOrder

namespace Level

/-- The level used where none is chosen. -/
def standard : Level := .level3

def toInt : Level → UInt8
  | .level1 => 1
  | .level2 => 2
  | .level3 => 3
  | .level3Le => 4

def ofInt? (n : UInt8) : Except UnknownMember Level :=
  match n.toNat with
  | 1 => .ok .level1
  | 2 => .ok .level2
  | 3 => .ok .level3
  | 4 => .ok .level3Le
  | _ => .error ⟨"skillet_types::compat::CompatibilityLevel", n⟩

theorem ofInt?_toInt (l : Level) : ofInt? l.toInt = .ok l := by
  cases l <;> rfl

def name : Level → String
  | .level1 => "Level1"
  | .level2 => "Level2"
  | .level3 => "Level3"
  | .level3Le => "Level3Le"

/-- The encoding choices of a level. Each level changes one thing about the one before it. -/
def format : Level → WireFormat
  | .level1 => ⟨.big, false, false, false⟩
  | .level2 => ⟨.big, true, true, false⟩
  | .level3 => ⟨.big, true, true, true⟩
  | .level3Le => ⟨.little, true, true, true⟩

end Level

namespace TagEncoding

/-- The tag encoding used where none is chosen. -/
def standard : TagEncoding := .u8

def toInt : TagEncoding → UInt8
  | .u8 => 0
  | .u16 => 1
  | .varint => 2

def ofInt? (n : UInt8) : Except UnknownMember TagEncoding :=
  match n.toNat with
  | 0 => .ok .u8
  | 1 => .ok .u16
  | 2 => .ok .varint
  | _ => .error ⟨"skillet_types::compat::DiscriminantEncoding", n⟩

theorem ofInt?_toInt (t : TagEncoding) : ofInt? t.toInt = .ok t := by
  cases t <;> rfl

def name : TagEncoding → String
  | .u8 => "U8"
  | .u16 => "U16"
  | .varint => "VarInt"

/-- The largest tag that an encoding can carry. -/
def maxTag : TagEncoding → UInt32
  | .u8 => 0xff
  | .u16 => 0xffff
  | .varint => 0xffffffff

end TagEncoding

end SchemaWire

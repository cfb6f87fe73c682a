import SchemaWire.Error
import SchemaWire.Wire.Varint
import SchemaWire.Wire.FixedWidth
import SchemaWire.Wire.Writer
/-!
# Reading

A `Reader` goes through the bytes of an input from an offset to its end. It is kept as the bytes
that lie ahead, with their number, the position they start at, and the number of records open
around it; nothing that lies behind can influence what is read.

A `Decoder` is a computation on a reader. Reading past the end is an error and never a short read.
Where a decoder fails, the reader stays where the failure found it: the bytes read before are
consumed, and the records that were open are still counted.

`Reader.readVarint` reads a varint whose value has to fit a number of bits. It takes up to ten
bytes; the tenth has room for a single bit of a 64-bit word.
-/

namespace SchemaWire

/-- A cursor over the rest of an input. -/
structure Reader where
  /-- The bytes not yet read. -/
  ahead : List UInt8
  /-- The offset of the next byte in the input. -/
  position : Nat
  remaining : Nat
  /-- The format in which pieces are read. -/
  format : WireFormat
  /-- The number of records open around the current position. -/
  depth : Nat
  /-- The bytes not yet read are counted. -/
  remaining_eq : remaining = ahead.length

/-- A computation that reads. -/
abbrev Decoder (α : Type) := EStateM DecodeError Reader α

namespace Reader

/-- A reader that starts at an offset of an input. -/
def start (input : Array UInt8) (offset : Nat) (format : WireFormat) :
    Except DecodeError Reader :=
  if offset ≤ input.size then
    .ok ⟨input.toList.drop offset, offset, input.size - offset, format, 0, by simp⟩
  else .error (.truncated offset 0 0)

/-- The next bytes, as many as asked for. -/
def take (n : Nat) : Decoder (List UInt8) := fun r =>
  if n ≤ r.remaining then
    .ok (r.ahead.take n) { r with
      ahead := r.ahead.drop n
      position := r.position + n
      remaining := r.remaining - n
      remaining_eq := by simp [r.remaining_eq] }
  else .error (.truncated r.position n r.remaining) r

def readByte : Decoder UInt8 := fun r =>
  match h : r.ahead with
  | [] => .error (.truncated r.position 1 r.remaining) r
  | b :: bs =>
    .ok b { r with
      ahead := bs
      position := r.position + 1
      remaining := r.remaining - 1
      remaining_eq := by simp [r.remaining_eq, h] }

/-- A number in a fixed number of bytes, in the byte order of the reader. -/
def readFixed (width : Nat) : Decoder Nat := do
  let bytes ← take width
  return (← get).format.byteOrder.number bytes

/-- The groups of a varint that follow those already read: `left` more may come, and `u` is the
word made of the groups before. -/
def readGroups (bits : Nat) : (left : Nat) → UInt64 → Decoder UInt64
  | 0, _ => throw (.varintOverflow bits)
  | left + 1, u => do
    let byte ← readByte
    let group := (byte &&& 0x7f).toUInt64
    -- Nine groups before the last one take up 63 bits of the word.
    if left = 0 ∧ 1 < group then
      throw (.varintOverflow bits)
    else
      let u := u ||| group <<< UInt64.ofNat (7 * (Varint.maxSize - 1 - left))
      if byte &&& 0x80 = 0 then
        -- The last byte is consumed even where the value turns out to be too large.
        if bits < 64 ∧ u >>> UInt64.ofNat bits ≠ 0 then
          throw (.varintOverflow bits)
        else
          return u
      else
        readGroups bits left u

/-- A varint whose value fits the given number of bits. -/
def readVarint (bits : Nat) : Decoder UInt64 := readGroups bits Varint.maxSize 0

/-- The length of a text or the count of a list, in the form the reader's format gives it. -/
def readLength : Decoder Nat := do
  if (← get).format.varintLengths then
    return (← readVarint 32).toNat
  else
    readFixed 4

/-- Moves into a record. -/
def descend : Decoder Unit := modify fun r => { r with depth := r.depth + 1 }

/-- Moves out of a record. -/
def ascend : Decoder Unit := modify fun r => { r with depth := r.depth - 1 }

/-- Moves into a record, if records may nest that deeply. -/
def enter : Decoder Unit := do
  if (← get).depth < maxDepth then descend else throw (.depthExceeded maxDepth)

end Reader

/-- Reads a number of members one after another; `done` holds those already read, the last one
first. -/
def Decoder.repeatInto {α : Type} (member : Decoder α) : Nat → List α → Decoder (List α)
  | 0, done => return done.reverse
  | n + 1, done => do
    let x ← member
    member.repeatInto n (x :: done)

/-- Reads a number of members one after another. -/
def Decoder.replicate {α : Type} (n : Nat) (member : Decoder α) : Decoder (List α) :=
  member.repeatInto n []

end SchemaWire

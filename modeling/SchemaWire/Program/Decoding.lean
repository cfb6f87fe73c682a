import SchemaWire.Program.MinSize
/-!
# Decoding

`Program.decode` reads a value in the layout of a program. It has the structure of encoding: the
layout decides node by node what is read (`Program.decodeLayout`), and records are taken by name
(`Program.decodeRecord`), each of them using up one of the levels of nesting that are left.

* A list count is checked before any member is read (`Program.countLimit`).
* A record is made of its present fields as they were read and its omitted fields at their
  defaults. A name that is both takes the default.
* A failure inside a record leaves the record open: the reader's depth is lowered only where a
  record is read to its end.
-/

namespace SchemaWire

namespace Program

/-- Reads a tag. -/
def readTag (p : Program) : Decoder UInt32 :=
  match p.tagEncoding with
  | .u8 => return UInt32.ofNat (← Reader.readFixed 1)
  | .u16 => return UInt32.ofNat (← Reader.readFixed 2)
  | .varint => return (← Reader.readVarint 32).toUInt32

/-- Reads a text: its length in bytes, then the bytes, which have to be UTF-8. -/
def decodeText : Decoder Value := do
  let length ← Reader.readLength
  let bytes ← Reader.take length
  match String.fromUTF8? ⟨bytes.toArray⟩ with
  | some s => return .text s
  | none => throw .invalidUtf8

/-- Reads a nullable boolean from one byte. -/
def decodePacked (wrapped : Bool) : Decoder Value := do
  let byte ← Reader.readByte
  match byte.toNat with
  | 0 => return if wrapped then .wrapped none else .null
  | 1 => return boolean false
  | 2 => return boolean true
  | _ => throw (.invalidPresence byte)
where
  /-- A boolean in the form of the layout. -/
  boolean (b : Bool) : Value :=
    if wrapped then .wrapped (some ⟨.bool, b⟩) else .scalar ⟨.bool, b⟩

mutual

/-- Reads a value in a layout, where `call` reads the records in it. -/
def decodeLayout (p : Program) (call : TypeName → Decoder Value) : Layout → Decoder Value
  | .primitive q => q.decode p.format
  | .text => decodeText
  | .nullable inner =>
    match p.packed? inner with
    | some wrapped => decodePacked wrapped
    | none => do
      let byte ← Reader.readByte
      if byte = 0 then return inner.nullValue
      else if byte = 1 then p.decodeLayout call inner
      else throw (.invalidPresence byte)
  | .list member => do
    let count ← Reader.readLength
    let limit := p.countLimit member (← get).remaining
    if count ≤ limit then
      return .list (← Decoder.replicate count (p.decodeLayout call member))
    else throw (.listTooLong count limit)
  | .record name _ => call name
  | .reference name => call name
  | .subtypes group members => do
    let tag ← p.readTag
    match p.decodeMember? call members tag with
    | some member => member
    | none => throw (.unknownTag group tag)

/-- The decoder of the member of a group that a tag stands for. Of several members with one tag
the last counts. -/
def decodeMember? (p : Program) (call : TypeName → Decoder Value) :
    List (Member Layout) → UInt32 → Option (Decoder Value)
  | [], _ => none
  | ⟨tag, _, a⟩ :: members, wanted =>
    -- Later members are asked first.
    match p.decodeMember? call members wanted with
    | some member => some member
    | none => if tag = wanted then some (p.decodeLayout call a) else none

end

/-- Reads fields one after another and adds them to those that are `done`. -/
def decodeFields (p : Program) (call : TypeName → Decoder Value) :
    List (Field Layout) → FieldMap Value → Decoder (FieldMap Value)
  | [], done => return done
  | f :: fields, done => do
    let v ← p.decodeLayout call f.layout
    p.decodeFields call fields (done.insert f.name v)

/-- The fields of a record, completed by the defaults of those that are not on the wire. -/
def withDefaults (p : Program) (name : TypeName) (fields : FieldMap Value) : FieldMap Value :=
  (p.omitted name).foldl (fun m f => m.insert f.name f.layout.default) fields

/-- Reads the fields of a record, where `call` reads the records in them. -/
def decodeBody (p : Program) (call : TypeName → Decoder Value) (name : TypeName) :
    Decoder Value := do
  let fields ← p.decodeFields call (p.present name) []
  return .record name (p.withDefaults name fields)

/-- Reads a record, where `room` records may still be opened. -/
def decodeRecord (p : Program) : (room : Nat) → TypeName → Decoder Value
  | 0, _ => throw (.depthExceeded maxDepth)
  | room + 1, name => do
    Reader.descend
    let v ← p.decodeBody (p.decodeRecord room) name
    Reader.ascend
    return v

/-- Reads a value. -/
def decode (p : Program) : Decoder Value := fun r =>
  p.decodeLayout (p.decodeRecord (maxDepth - r.depth)) p.root r

end Program

end SchemaWire

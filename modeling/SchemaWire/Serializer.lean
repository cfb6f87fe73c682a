import SchemaWire.Cache
import SchemaWire.Settings
/-!
# Serializers

A `Serializer` encodes and decodes the values of one root type. It has a version at which it
encodes and one at which it decodes, neither of them above the newest version of its layout; with
a **version header** the version is written in front of every value, and decoding goes by what it
finds there.

* `Serializer.encode` writes into a buffer at an offset. It returns the outcome together with the
  buffer as it is afterwards; `Serializer.encodeAt` does the same at a given version, without a
  header.
* `Serializer.encodeGrowing` finds a buffer that is large enough by doubling.
* `Serializer.decode` and `Serializer.decodeAt` read a value at an offset and return it with the
  offset just past it.
-/

namespace SchemaWire

/-- The encoder and decoder of a root type. -/
structure Serializer where
  layout : Layout
  programs : ProgramFamily
  /-- The place of the programs in their cache. -/
  handle : ProgramHandle
  level : Level
  encodeVersion : Version
  /-- The version to decode at, where there is no header. -/
  decodeVersion : Version
  /-- Every encoded value begins with its version. -/
  versionHeader : Bool

/-- Performs a script on a buffer at an offset. Returns the offset just past the last byte
written, and the buffer afterwards. -/
def Script.writeInto (script : Script) (buffer : Array UInt8) (offset : Nat)
    (format : WireFormat) : Except EncodeError Nat × Array UInt8 :=
  match Writer.start buffer offset format with
  | .error e => (.error e, buffer)
  | .ok w =>
    match Script.run script w with
    | .ok () w => (.ok w.position, w.contents)
    | .error e w => (.error e, w.contents)

/-- Performs a script on zeroed buffers, each twice as large as the one before, until its bytes
fit. A buffer of the size of the script leaves no piece without room, so the search ends there. -/
def Script.writeGrowing (script : Script) (format : WireFormat) (size : Nat) :
    Except EncodeError (Array UInt8) :=
  match script.writeInto (Array.replicate size 0) 0 format with
  | (.ok position, buffer) => .ok (buffer.extract 0 position)
  | (.error (.bufferOverflow offset needed remaining), _) =>
    -- A larger buffer helps as long as the script does not fit this one.
    if 0 < size ∧ size < script.size format then script.writeGrowing format (2 * size)
    else .error (.bufferOverflow offset needed remaining)
  | (.error e, _) => .error e
termination_by script.size format - size

namespace Serializer

/-- The size of the first buffer that is tried. -/
def firstSize : Nat := 64

/-- The serializer of a layout, with its versions brought down to the newest one that the layout
has. -/
def ofLayout (layout : Layout) (compiled : ProgramHandle × ProgramFamily) (settings : Settings) :
    Serializer :=
  let newest := compiled.2.maxVersion
  let clamp (v : Option Version) : Version :=
    match v with
    | some v => if newest < v then newest else v
    | none => newest
  { layout
    programs := compiled.2
    handle := compiled.1
    level := settings.level
    encodeVersion := clamp settings.encodeVersion
    decodeVersion := clamp settings.decodeVersion
    versionHeader := settings.versionHeader }

/-- The format of the serializer's level. -/
def format (s : Serializer) : WireFormat := s.level.format

/-- The versions at which fields of the layout are added. -/
def versions (s : Serializer) : List Version := s.layout.versions

/-- Whether two serializers use one and the same program. -/
def sharesProgramWith (s t : Serializer) : Bool := s.handle = t.handle

/-- The steps that encode a value at a version, without a header. -/
def scriptAt (s : Serializer) (version : Version) (v : Value) : Script :=
  (s.programs.programFor version).script maxDepth v

/-- The steps that encode a value. -/
def script (s : Serializer) (v : Value) : Script :=
  (if s.versionHeader then [.varint s.encodeVersion.toUInt64] else []) ++
    s.scriptAt s.encodeVersion v

/-- Writes a value into a buffer at an offset. Returns the offset just past the last byte written,
and the buffer afterwards. -/
def encode (s : Serializer) (buffer : Array UInt8) (offset : Nat) (v : Value) :
    Except EncodeError Nat × Array UInt8 :=
  (s.script v).writeInto buffer offset s.format

/-- Writes a value at a given version, never with a header. -/
def encodeAt (s : Serializer) (buffer : Array UInt8) (offset : Nat) (v : Value)
    (version : Version) : Except EncodeError Nat × Array UInt8 :=
  (s.scriptAt version v).writeInto buffer offset s.format

/-- The bytes of a value, in a buffer that grows until they fit. -/
def encodeGrowing (s : Serializer) (v : Value) : Except EncodeError (Array UInt8) :=
  (s.script v).writeGrowing s.format firstSize

/-- The version to decode at: the one in front of the value under a header, and the serializer's
own otherwise. -/
def readVersion (s : Serializer) : Decoder Version := do
  if s.versionHeader then
    -- A version from the future may have fields of which nothing is known here.
    let version := (← Reader.readVarint 32).toUInt32
    if s.programs.maxVersion < version then throw (.unknownVersion version) else return version
  else
    return s.decodeVersion

/-- Runs a decoder on an input at an offset. Returns what it reads with the offset just past the
last byte read. -/
def decodeWith (s : Serializer) (input : Array UInt8) (offset : Nat) (d : Decoder Value) :
    Except DecodeError (Value × Nat) :=
  match Reader.start input offset s.format with
  | .error e => .error e
  | .ok r =>
    match d r with
    | .ok v r => .ok (v, r.position)
    | .error e _ => .error e

/-- Reads a value from an input at an offset. -/
def decode (s : Serializer) (input : Array UInt8) (offset : Nat) :
    Except DecodeError (Value × Nat) :=
  s.decodeWith input offset do
    let version ← s.readVersion
    (s.programs.programFor version).decode

/-- Reads a value at a given version, never with a header. -/
def decodeAt (s : Serializer) (input : Array UInt8) (offset : Nat) (version : Version) :
    Except DecodeError (Value × Nat) :=
  s.decodeWith input offset (s.programs.programFor version).decode

end Serializer

end SchemaWire

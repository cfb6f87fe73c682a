import SchemaWire.Native.Basic
import SchemaWire.Builder
/-!
# Serializers of native data

A native type is registered by declaring the record types that its data needs
(`NativeTypes.register`). A record type is declared before its fields are registered, one after
another. If it asks first, then a type of its name that has been declared, be it another one, is
taken for it, and its fields are left alone.

Registration goes through a builder. Where it fails halfway, what has been declared by then stays.

A `NativeSerializer` does the conversions on the way in and out of a serializer.
-/

namespace SchemaWire

namespace NativeTypes

variable (Γ : NativeTypes)

section Fields

variable (record : Fin Γ.count → Schema → Except SchemaError Unit × Schema)

/-- Registers a type, where `record` registers the record type in it. -/
def registerType (t : NativeType Γ.count) (s : Schema) : Except SchemaError Unit × Schema :=
  match t.record? with
  | some i => record i s
  | none => (.ok (), s)

/-- Registers the types of fields, up to the first that fails. -/
def registerFields : List (NativeField Γ.count) → Schema → Except SchemaError Unit × Schema
  | [], s => (.ok (), s)
  | f :: fields, s =>
    match Γ.registerType record f.type s with
    | (.ok (), s) => registerFields fields s
    | (.error e, s) => (.error e, s)

end Fields

/-- Registers a record type. `fuel` bounds how deep this goes. -/
def registerRecord : (fuel : Nat) → Fin Γ.count → Schema → Except SchemaError Unit × Schema
  | 0, _, s => (.ok (), s)
  | fuel + 1, i, s =>
    if (Γ.record i).asksFirst && (s.record? (Γ.record i).name).isSome then (.ok (), s)
    else
      match s.declareRecord (Γ.decl i) with
      | .error e => (.error e, s)
      | .ok s => Γ.registerFields (registerRecord fuel) (Γ.record i).fields s

/-- How deep registration can go: each of the types that ask first is opened once, and below it and
below the root there are types that do not ask, each of them once. -/
def registrationDepth : Nat := (Γ.count + 1) * (Γ.count + 1)

/-- Declares the record types that the data of a type needs. -/
def register (t : NativeType Γ.count) (s : Schema) : Except SchemaError Unit × Schema :=
  Γ.registerType (Γ.registerRecord Γ.registrationDepth) t s

end NativeTypes

/-- A serializer of the data of a native type. -/
structure NativeSerializer (Γ : NativeTypes) (t : NativeType Γ.count) where
  untyped : Serializer

namespace NativeSerializer

variable {Γ : NativeTypes} {t : NativeType Γ.count}

/-- Writes data into a buffer at an offset. -/
def encode (s : NativeSerializer Γ t) (buffer : Array UInt8) (offset : Nat) (x : NativeData Γ t) :
    Except EncodeError Nat × Array UInt8 :=
  s.untyped.encode buffer offset x.toValue

/-- The bytes of data. -/
def encodeGrowing (s : NativeSerializer Γ t) (x : NativeData Γ t) :
    Except EncodeError (Array UInt8) :=
  s.untyped.encodeGrowing x.toValue

/-- Reads data from an input at an offset. -/
def decode (s : NativeSerializer Γ t) (input : Array UInt8) (offset : Nat) :
    Except DecodeError (NativeData Γ t × Nat) := do
  let (v, position) ← s.untyped.decode input offset
  return (← Γ.ofValue t v, position)

end NativeSerializer

namespace Builder

variable {Γ : NativeTypes}

/-- Declares what a native type needs. Returns the builder as it is afterwards. -/
def register (b : Builder) (t : NativeType Γ.count) : Except SchemaError Unit × Builder :=
  let (result, schema) := Γ.register t b.schema
  (result, { b with schema })

/-- Builds the serializer of native data, after declaring what it needs. -/
def buildNative (b : Builder) (t : NativeType Γ.count) (cache : ProgramCache) :
    BuildResult (NativeSerializer Γ t) × ProgramCache :=
  match b.register t with
  | (.error e, _) => (.error e, cache)
  | (.ok (), b) =>
    let (result, cache) := b.build (Γ.typeExpr t) cache
    (result.map .mk, cache)

end Builder

end SchemaWire

import SchemaWire.Program.MinSize
/-!
# Encoding

`Program.script` gives the steps that write a value in the layout of a program, and
`Program.encode` performs them on a writer.

The layout of a value decides its script node by node (`Program.layoutScript`). Records are taken
by name: a record and a reference to it both hand over to `Program.recordScript`, which looks up
the fields. Each record takes one of the `room` levels that the writer still has, so the
recursion ends even for a record that contains itself; a value that nests deeper fails.

A value that does not conform fails at the place where it departs from the layout, after the
steps for everything before it. The check that a list of members without bytes is not too long
comes before its count is written, and the check for undeclared fields before any field is.
-/

namespace SchemaWire

namespace Program

/-- The step that writes a tag, cut to the width of the encoding. -/
def tagStep (p : Program) (tag : UInt32) : Step :=
  match p.tagEncoding with
  | .u8 => .fixed 1 tag.toUInt8.toNat
  | .u16 => .fixed 2 tag.toUInt16.toNat
  | .varint => .varint tag.toUInt64

/-- The steps for a text: its length in bytes, then the bytes. -/
def textScript : Value → Script
  | .text s => [.length s.toUTF8.size, .raw s.toUTF8.data.toList]
  | .null => [.fail (.nullValue "string")]
  | v => [.fail (.typeMismatch "string" v.describe)]

/-- The step for a nullable boolean in one byte. -/
def packedScript (wrapped : Bool) (v : Value) : Script :=
  match wrapped, v with
  | _, .null | _, .wrapped none => [.raw [0]]
  | true, .wrapped (some ⟨.bool, b⟩) | false, .scalar ⟨.bool, b⟩ => [.raw [if b then 2 else 1]]
  | _, v => [.fail (.typeMismatch "nullable bool" v.describe)]

mutual

/-- The steps that write a value in a layout, where `call` writes the records in it. -/
def layoutScript (p : Program) (call : TypeName → Value → Script) : Layout → Value → Script
  | .primitive q, v => q.script p.format v
  | .text, v => textScript v
  | .nullable inner, v =>
    match p.packed? inner with
    | some wrapped => packedScript wrapped v
    | none => if v.isNull then [.raw [0]] else .raw [1] :: p.layoutScript call inner v
  | .list member, v =>
    match v with
    | .list vs =>
      if maxEmptyMembers < vs.length ∧ p.minSize member = 0 then
        [.fail (.listTooLong vs.length maxEmptyMembers)]
      else .length vs.length :: vs.flatMap (p.layoutScript call member)
    | .null => [.fail (.nullValue "list")]
    | v => [.fail (.typeMismatch "list" v.describe)]
  | .record name _, v => call name v
  | .reference name, v => call name v
  | .subtypes group members, v =>
    match v.runtimeType? with
    | none => [.fail (.unregisteredSubtype group v.describe)]
    | some type =>
      match p.memberScript? call members type v with
      | some script => script
      | none => [.fail (.unregisteredSubtype group type)]

/-- The steps that write a record as a member of a group, if its type is one. Of several members
with one type the last counts. -/
def memberScript? (p : Program) (call : TypeName → Value → Script) :
    List (Member Layout) → TypeName → Value → Option Script
  | [], _, _ => none
  | ⟨tag, type, a⟩ :: members, wanted, v =>
    -- Later members are asked first.
    match p.memberScript? call members wanted v with
    | some script => some script
    | none => if type = wanted then some (p.tagStep tag :: p.layoutScript call a v) else none

end

/-- The steps for the fields of a record, where `call` writes the records in them. -/
def bodyScript (p : Program) (call : TypeName → Value → Script) (name : TypeName) (v : Value) :
    Script :=
  match v with
  | .record type fields =>
    if type = name then
      -- A field that is declared but not on the wire at this version is no reason to refuse.
      match fields.find? fun x => !(p.fieldsOf name).any (·.name = x.1) with
      | some x => [.fail (.unknownField name x.1)]
      | none =>
        (p.present name).flatMap fun f =>
          match FieldMap.find? fields f.name with
          | some x => p.layoutScript call f.layout x
          | none => [.fail (.missingField name f.name)]
    else [.fail (.typeMismatch (TypeExpr.record name).describe v.describe)]
  | .null => [.fail (.nullValue (TypeExpr.record name).describe)]
  | v => [.fail (.typeMismatch (TypeExpr.record name).describe v.describe)]

/-- The steps for a record, where `room` records may still be opened. -/
def recordScript (p : Program) : (room : Nat) → TypeName → Value → Script
  | 0, _, _ => [.fail (.depthExceeded maxDepth)]
  | room + 1, name, v => .enter :: (p.bodyScript (p.recordScript room) name v ++ [.leave])

/-- The steps that write a value, where `room` records may still be opened. -/
def script (p : Program) (room : Nat) (v : Value) : Script :=
  p.layoutScript (p.recordScript room) p.root v

/-- Writes a value. -/
def encode (p : Program) (v : Value) : Encoder := fun w =>
  Script.run (p.script (maxDepth - w.depth) v) w

end Program

end SchemaWire

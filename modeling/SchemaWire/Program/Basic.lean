import SchemaWire.Layout.Nodes
/-!
# Programs

A `Program` is a layout fixed at one version, one format and one tag encoding: all that is needed
to encode and decode. It keeps the records that the layout spells out (`Program.records`), so
that a record and a reference to it mean the same: the fields listed under the name
(`Program.fieldsOf`). Of these the program writes the ones added at its version or before
(`Program.present`); the rest are left out (`Program.omitted`) and hold their defaults when read.
-/

namespace SchemaWire

/-- A layout at one version, in one format, with one tag encoding. -/
structure Program where
  /-- The version whose fields are on the wire. -/
  version : Version
  /-- The format for which the layout was fixed. -/
  format : WireFormat
  tagEncoding : TagEncoding
  /-- The records that the layout spells out; of two with one name the first counts. -/
  records : List (TypeName × List (Field Layout))
  root : Layout

namespace Program

/-- The program of a layout. -/
def ofLayout (root : Layout) (version : Version) (format : WireFormat)
    (tagEncoding : TagEncoding) : Program :=
  ⟨version, format, tagEncoding, root.records, root⟩

/-- The fields of a record, in wire order. A name that the layout does not spell out has none. -/
def fieldsOf (p : Program) (name : TypeName) : List (Field Layout) :=
  (p.records.lookup name).getD []

/-- The fields of a record that are on the wire. -/
def present (p : Program) (name : TypeName) : List (Field Layout) :=
  (p.fieldsOf name).filter fun f => f.added ≤ p.version

/-- The fields of a record that are not on the wire yet. -/
def omitted (p : Program) (name : TypeName) : List (Field Layout) :=
  (p.fieldsOf name).filter fun f => p.version < f.added

/-- Whether a nullable of the given layout is packed into one byte, and if so, whether its
booleans are boxed. -/
def packed? (p : Program) (inner : Layout) : Option Bool :=
  match inner with
  | .primitive q => if p.format.packedBooleans && q.kind = .bool then some q.wrapped else none
  | _ => none

end Program

end SchemaWire

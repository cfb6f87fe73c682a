import SchemaWire.Schema.Basic
import SchemaWire.Layout.Nodes
/-!
# Resolving a type to its layout

`Schema.layout` turns a type into its layout by looking up every record and group that the type
mentions. The work goes through the type in the order in which the finished layout is read, and
carries along the records that have been spelled out so far: the first mention of a record is
spelled out, every later one is a reference.

* A nullable of a nullable is one nullable, and a scalar directly under a nullable is boxed.
* Whether an integer has a variable length is said at the field and handed down to the scalar
  under its nullables and lists.
* A mention that cannot be resolved is reported with the place where it stands: the root, a field
  written as `Record.field`, or a group.

Every record is spelled out once, so records cannot be nested in one another more deeply than the
schema has records; `Schema.resolveRecord` carries this bound.
-/

namespace SchemaWire

/-- A step of resolution, with the records spelled out so far. -/
abbrev Resolving (α : Type) := StateT (List TypeName) (Except SchemaError) α

namespace Layout

/-- The layout of a nullable around a layout. -/
def asNullable : Layout → Layout
  | .nullable inner => .nullable inner
  | a => .nullable a.ensureWrapped

end Layout

namespace Schema

/-- Resolves a group, where `record` resolves its members. -/
def resolveGroup (s : Schema) (tagEncoding : TagEncoding)
    (record : TypeName → String → Resolving Layout) (group : GroupName) (referrer : String) :
    Resolving Layout := do
  let described := (TypeExpr.subtypes group).describe
  match s.group? group with
  | none => throw (.unresolvable described referrer)
  | some d =>
    let tagged ← ofExcept d.taggedMembers
    let members ← tagged.mapM fun (tag, type) => do
      if tagEncoding.maxTag < tag then
        throw (.tagOverflow group tag tagEncoding)
      return Member.mk tag type (← record type described)
    return .subtypes group members

/-- Resolves a type, where `record` resolves the records in it. -/
def resolveType (s : Schema) (tagEncoding : TagEncoding)
    (record : TypeName → String → Resolving Layout) (varLength : Bool) (referrer : String) :
    TypeExpr → Resolving Layout
  | .scalar kind => return .primitive ((Primitive.ofKind kind).withVarLength varLength)
  | .wrapped kind =>
    return .primitive ((Primitive.ofKind kind).withVarLength varLength).ensureWrapped
  | .text => return .text
  | .nullable inner =>
    return (← s.resolveType tagEncoding record varLength referrer inner).asNullable
  | .list member => return .list (← s.resolveType tagEncoding record varLength referrer member)
  | .record name => record name referrer
  | .subtypes group => s.resolveGroup tagEncoding record group referrer

/-- Resolves a mention of a record. `fuel` bounds how many records can still be spelled out inside
one another. -/
def resolveRecord (s : Schema) (tagEncoding : TagEncoding) (fuel : Nat) (name : TypeName)
    (referrer : String) : Resolving Layout := do
  if name ∈ (← get) then
    return .reference name
  match s.record? name, fuel with
  | some d, fuel + 1 =>
    -- Noted before its fields are resolved, so that a mention inside them is a reference.
    modify (name :: ·)
    let fields ← d.wireFields.mapM fun f => do
      let a ← s.resolveType tagEncoding (s.resolveRecord tagEncoding fuel) f.varLength
        (name ++ "." ++ f.name) f.type
      return Field.mk f.name f.added a
    return .record name fields
  | _, _ => throw (.unresolvable (TypeExpr.record name).describe referrer)

/-- Refuses a layout in which a reference comes before the record it refers to. -/
def checkReferences (a : Layout) : Except SchemaError Unit :=
  match a.dangling? with
  | some name => .error (.unresolvable name "a reference preceding its definition")
  | none => .ok ()

/-- The layout of a type. -/
def layout (s : Schema) (tagEncoding : TagEncoding) (root : TypeExpr) :
    Except SchemaError Layout := do
  let (a, _) ← s.resolveType tagEncoding (s.resolveRecord tagEncoding s.records.length) false
    "root" root []
  checkReferences a
  return a

end Schema

end SchemaWire

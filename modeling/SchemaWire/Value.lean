import SchemaWire.Scalar
import SchemaWire.FieldMap
/-!
# Values

A **value** is what serializers write and read: a scalar, a boxed scalar that may be missing, a
text, a list, a record, or null. A record names its type and holds its fields as a `FieldMap`;
the order of fields on the wire comes from the declaration of the type, never from the value.

* `Value.describe` is the short description that error messages use.
* `Value.nodeCount` counts a value together with everything inside it.

Equality is decidable (`Value.beq_eq_true_iff`); it compares floating-point numbers by bits, as
`Scalar` does.
-/

namespace SchemaWire

/-- The in-memory form of data. -/
inductive Value where
  /-- Absence, where a layout allows it. -/
  | null
  /-- A bare scalar. -/
  | scalar (s : Scalar)
  /-- A boxed scalar, or the empty box. -/
  | wrapped (box : Option Scalar)
  /-- A text. -/
  | text (s : String)
  /-- A list of values. -/
  | list (members : List Value)
  /-- An instance of a record type. -/
  | record (type : TypeName) (fields : List (String × Value))
deriving Inhabited

/-- A record value: the name of its type and its fields by name. -/
structure Record where
  /-- The record type that this is an instance of. -/
  type : TypeName
  /-- The fields, sorted by name. -/
  fields : FieldMap Value

namespace Value

/-! ### Equality -/

mutual

def beq : Value → Value → Bool
  | .null, .null => true
  | .scalar s, .scalar t => decide (s = t)
  | .wrapped a, .wrapped b => decide (a = b)
  | .text s, .text t => decide (s = t)
  | .list vs, .list ws => beqMembers vs ws
  | .record n fs, .record m gs => decide (n = m) && beqFields fs gs
  | _, _ => false

def beqMembers : List Value → List Value → Bool
  | [], [] => true
  | v :: vs, w :: ws => beq v w && beqMembers vs ws
  | _, _ => false

def beqFields : List (String × Value) → List (String × Value) → Bool
  | [], [] => true
  | (k, v) :: fs, (j, w) :: gs => decide (k = j) && (beq v w && beqFields fs gs)
  | _, _ => false

end

mutual

theorem beq_eq_true_iff : ∀ {v w : Value}, beq v w = true ↔ v = w
  | .null, w => by cases w <;> simp [beq]
  | .scalar s, w => by cases w <;> simp [beq]
  | .wrapped a, w => by cases w <;> simp [beq]
  | .text s, w => by cases w <;> simp [beq]
  | .list vs, w => by cases w <;> simp [beq, beqMembers_eq_true_iff]
  | .record n fs, w => by cases w <;> simp [beq, beqFields_eq_true_iff]

theorem beqMembers_eq_true_iff : ∀ {vs ws : List Value}, beqMembers vs ws = true ↔ vs = ws
  | [], ws => by cases ws <;> simp [beqMembers]
  | v :: vs, ws => by
    cases ws <;> simp [beqMembers, beq_eq_true_iff, beqMembers_eq_true_iff]

theorem beqFields_eq_true_iff :
    ∀ {fs gs : List (String × Value)}, beqFields fs gs = true ↔ fs = gs
  | [], gs => by cases gs <;> simp [beqFields]
  | (k, v) :: fs, gs => by
    rcases gs with _ | ⟨⟨j, w⟩, gs⟩ <;>
      simp [beqFields, beq_eq_true_iff, beqFields_eq_true_iff, and_assoc]

end

instance : DecidableEq Value := fun _ _ => decidable_of_iff _ beq_eq_true_iff

/-! ### Shape -/

/-- Boxes a bare scalar, and leaves every other value alone. -/
def boxed : Value → Value
  | .scalar s => .wrapped (some s)
  | v => v

/-- The two forms of absence: null itself and the empty box. -/
def isNull : Value → Bool
  | .null | .wrapped none => true
  | _ => false

/-- The record type of a value, by which subtypes are told apart. -/
def runtimeType? : Value → Option TypeName
  | .record type _ => some type
  | _ => none

/-- A short description of a value's shape. -/
def describe : Value → String
  | .null => "null"
  | .scalar s => s.kind.name
  | .wrapped (some s) => "wrapped " ++ s.kind.name
  | .wrapped none => "null wrapped scalar"
  | .text _ => "string"
  | .list _ => "list"
  | .record type _ => "record " ++ type

mutual

/-- How many values there are in a value: itself, and those in its members or fields. -/
def nodeCount : Value → Nat
  | .list vs => 1 + nodeCountMembers vs
  | .record _ fs => 1 + nodeCountFields fs
  | _ => 1

def nodeCountMembers : List Value → Nat
  | [] => 0
  | v :: vs => nodeCount v + nodeCountMembers vs

def nodeCountFields : List (String × Value) → Nat
  | [] => 0
  | (_, v) :: fs => nodeCount v + nodeCountFields fs

end

/-! ### Induction -/

/-- **Induction on values.** A property of values holds of all of them if it holds of a list or a
record whenever it holds of every value directly inside. -/
@[induction_eliminator]
theorem induction {motive : Value → Prop} (null : motive .null)
    (scalar : ∀ s, motive (.scalar s)) (wrapped : ∀ b, motive (.wrapped b))
    (text : ∀ s, motive (.text s)) (list : ∀ vs, (∀ v ∈ vs, motive v) → motive (.list vs))
    (record : ∀ n fs, (∀ f ∈ fs, motive f.2) → motive (.record n fs)) (v : Value) : motive v :=
  Value.rec (motive_1 := motive) (motive_2 := fun vs => ∀ v ∈ vs, motive v)
    (motive_3 := fun fs => ∀ f ∈ fs, motive f.2) (motive_4 := fun f => motive f.2)
    null scalar wrapped text list record
    (fun _ h => absurd h List.not_mem_nil) (fun _ _ hv hvs => List.forall_mem_cons.2 ⟨hv, hvs⟩)
    (fun _ h => absurd h List.not_mem_nil) (fun _ _ hf hfs => List.forall_mem_cons.2 ⟨hf, hfs⟩)
    (fun _ _ h => h) v

end Value

namespace Record

def empty (type : TypeName) : Record := ⟨type, []⟩

def get? (r : Record) (field : String) : Option Value := r.fields.find? field

/-- The record with a field set, and the value that the field had before. -/
def insert (r : Record) (field : String) (v : Value) : Option Value × Record :=
  (r.get? field, { r with fields := r.fields.insert field v })

/-- The record without a field, and the value that the field had. -/
def remove (r : Record) (field : String) : Option Value × Record :=
  (r.get? field, { r with fields := r.fields.erase field })

def toValue (r : Record) : Value := .record r.type r.fields

/-- The record that lists the given fields, later ones overwriting earlier ones. -/
def ofFields (type : TypeName) (fields : List (String × Value)) : Record :=
  ⟨type, FieldMap.ofList fields⟩

end Record

end SchemaWire

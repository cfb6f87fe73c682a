import SchemaWire.Program.Decoding
import SchemaWire.Program.Encoding
/-!
# A layout at a version

What a layout puts on the wire at a version is decided record by record: some of the declared
fields are there and some are not yet. A `Snapshot` is this decision, and it is all that the meaning
of a value at a version depends on — neither the wire level nor the tag encoding enters it.

* `Layout.snapshot` is the snapshot of a layout at a version, and `Program.snapshot` the one that a
  program has been fixed at.
* `Layout.recordName?` names the record that a layout hands over to, so that a record that is
  spelled out and a reference to it are the same thing.
* `Layout.Proper` and `Program.Proper` are the shape that resolution gives to layouts and that the
  two directions of a codec rely on to undo each other.
-/

namespace SchemaWire

/-- The records of a layout as they lie on the wire at some version. -/
structure Snapshot where
  /-- The fields of a record that are on the wire, in wire order. -/
  present : TypeName → List (Field Layout)
  omitted : TypeName → List (Field Layout)

/-- A record type declares a field of the given name. -/
def Snapshot.Declares (s : Snapshot) (type : TypeName) (field : String) : Prop :=
  ∃ f, (f ∈ s.present type ∨ f ∈ s.omitted type) ∧ f.name = field

namespace Layout

/-- The fields of a record that a layout spells out, in wire order. -/
def fieldsOf (a : Layout) (name : TypeName) : List (Field Layout) :=
  (a.records.lookup name).getD []

/-- The records of a layout at a version. -/
def snapshot (a : Layout) (version : Version) : Snapshot where
  present name := (a.fieldsOf name).filter fun f => f.added ≤ version
  omitted name := (a.fieldsOf name).filter fun f => version < f.added

/-- The record that a layout hands over to, spelled out here or elsewhere. -/
def recordName? : Layout → Option TypeName
  | .record name _ | .reference name => some name
  | _ => none

/-- The layout of a nullable. -/
def isNullable : Layout → Bool
  | .nullable _ => true
  | _ => false

/-- **The shape of resolved layouts**, up to the fields of the records in them: a nullable holds no
nullable and boxes a scalar, and the members of a group have different types and different tags,
each of them a record of its type with a tag that the encoding can carry. -/
def Proper (tagEncoding : TagEncoding) : Layout → Prop
  | .nullable inner =>
    inner.isNullable = false ∧ (∀ q, inner = .primitive q → q.wrapped = true) ∧
      inner.Proper tagEncoding
  | .list member => member.Proper tagEncoding
  | .subtypes _ members =>
    (members.map (·.tag)).Nodup ∧ (members.map (·.type)).Nodup ∧
      ∀ m ∈ members, m.tag ≤ tagEncoding.maxTag ∧ m.layout.recordName? = some m.type
  | .primitive _ | .text | .record _ _ | .reference _ => True

end Layout

namespace Program

/-- The records of a program at its version. -/
def snapshot (p : Program) : Snapshot := ⟨p.present, p.omitted⟩

/-- Every layout that a program can meet has the shape of resolved layouts, and the fields of a
record have different names. -/
structure Proper (p : Program) : Prop where
  root : p.root.Proper p.tagEncoding
  field : ∀ name, ∀ f ∈ p.fieldsOf name, f.layout.Proper p.tagEncoding
  /-- No two fields of a record have one name. -/
  names : ∀ name, ((p.fieldsOf name).map (·.name)).Nodup

variable {p : Program}

theorem mem_present {name : TypeName} {f : Field Layout} :
    f ∈ p.present name ↔ f ∈ p.fieldsOf name ∧ f.added ≤ p.version := by
  simp [present]

theorem mem_omitted {name : TypeName} {f : Field Layout} :
    f ∈ p.omitted name ↔ f ∈ p.fieldsOf name ∧ p.version < f.added := by
  simp [omitted]

/-- Every declared field is either on the wire or not. -/
theorem mem_fieldsOf_iff {name : TypeName} {f : Field Layout} :
    f ∈ p.fieldsOf name ↔ f ∈ p.present name ∨ f ∈ p.omitted name := by
  rw [mem_present, mem_omitted, ← and_or_left, ← UInt32.not_le]
  exact ⟨fun h => ⟨h, Decidable.em _⟩, fun h => h.1⟩

theorem declares_iff {name : TypeName} {field : String} :
    p.snapshot.Declares name field ↔ ∃ f ∈ p.fieldsOf name, f.name = field := by
  simp only [Snapshot.Declares, mem_fieldsOf_iff]
  rfl

theorem Proper.present (h : p.Proper) {name : TypeName} {f : Field Layout}
    (hf : f ∈ p.present name) : f.layout.Proper p.tagEncoding :=
  h.field name f (mem_present.1 hf).1

theorem Proper.nodup_present (h : p.Proper) (name : TypeName) :
    ((p.present name).map (·.name)).Nodup :=
  (h.names name).sublist (List.filter_sublist.map _)

/-- Neither do a field on the wire and one that is not on the wire have one name. -/
theorem Proper.nodup_declared (h : p.Proper) (name : TypeName) :
    ((p.present name ++ p.omitted name).map (·.name)).Nodup := by
  -- The fields of a record are those that are there at the version and those that are not yet.
  have hperm : (p.present name ++ p.omitted name).Perm (p.fieldsOf name) := by
    have hnot : (fun f : Field Layout => decide (p.version < f.added)) =
        fun f => !decide (f.added ≤ p.version) := by
      funext f
      simp only [← UInt32.not_le, decide_not]
    unfold Program.present Program.omitted
    rw [hnot]
    exact List.filter_append_perm _ _
  exact (hperm.map _).nodup_iff.2 (h.names name)

/-- A record and a reference to it are written alike. -/
theorem layoutScript_of_recordName? {a : Layout} {name : TypeName} (h : a.recordName? = some name)
    (call : TypeName → Value → Script) (v : Value) : p.layoutScript call a v = call name v := by
  cases a <;> cases h <;> rfl

/-- A record and a reference to it are read alike. -/
theorem decodeLayout_of_recordName? {a : Layout} {name : TypeName} (h : a.recordName? = some name)
    (call : TypeName → Decoder Value) : p.decodeLayout call a = call name := by
  cases a <;> cases h <;> rfl

end Program

end SchemaWire

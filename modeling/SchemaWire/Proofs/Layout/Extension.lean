import SchemaWire.Proofs.Layout.Snapshot
/-!
# Layouts with more fields

When a type is extended by new fields, its layout changes in two ways: records get fields at their
ends, and, since a new field may mention a record before the old ones do, records may be spelled out
at other places than before. `Layout.Similar` is what stays: two layouts are similar if they differ
only in where the records in them are spelled out, and in the order of the members of groups.

On the side of values, `Value.withExtra` adds new fields at their defaults to every record in a
value, and `Value.withoutExtra` takes them away. Both rebuild a value record by record
(`Value.mapRecords`).
-/

namespace SchemaWire

namespace Value

variable {g : TypeName → FieldMap Value → FieldMap Value}

mutual

/-- A value with the fields of every record in it changed by `g`, inner records first. -/
def mapRecords (g : TypeName → FieldMap Value → FieldMap Value) : Value → Value
  | .null => .null
  | .scalar s => .scalar s
  | .wrapped box => .wrapped box
  | .text s => .text s
  | .list vs => .list (mapMembers g vs)
  | .record type fields => .record type (g type (mapFields g fields))

/-- The members of a list, each changed. -/
def mapMembers (g : TypeName → FieldMap Value → FieldMap Value) : List Value → List Value
  | [] => []
  | v :: vs => mapRecords g v :: mapMembers g vs

/-- The fields of a record, the values in them changed. -/
def mapFields (g : TypeName → FieldMap Value → FieldMap Value) :
    List (String × Value) → List (String × Value)
  | [] => []
  | (k, v) :: fields => (k, mapRecords g v) :: mapFields g fields

end

/-- A record with new fields at their defaults. -/
def addExtra (extra : TypeName → List (Field Layout)) (type : TypeName)
    (fields : FieldMap Value) : FieldMap Value :=
  (extra type).foldl (fun m f => m.insert f.name f.layout.default) fields

/-- A record without some fields. -/
def dropExtra (extra : TypeName → List (Field Layout)) (type : TypeName)
    (fields : FieldMap Value) : FieldMap Value :=
  fields.filter fun x => ∀ f ∈ extra type, f.name ≠ x.1

/-- A value with new fields at their defaults added to every record in it. -/
def withExtra (extra : TypeName → List (Field Layout)) : Value → Value :=
  mapRecords (addExtra extra)

/-- A value with some fields taken away from every record in it. -/
def withoutExtra (extra : TypeName → List (Field Layout)) : Value → Value :=
  mapRecords (dropExtra extra)

theorem mapMembers_eq_map (vs : List Value) : mapMembers g vs = vs.map (mapRecords g) := by
  induction vs with
  | nil => rfl
  | cons v vs ih => rw [mapMembers, ih, List.map_cons]

theorem mapRecords_list (vs : List Value) :
    mapRecords g (.list vs) = .list (vs.map (mapRecords g)) := by
  rw [mapRecords, mapMembers_eq_map]

theorem mapFields_eq_map (fields : FieldMap Value) :
    mapFields g fields = fields.map fun x => (x.1, mapRecords g x.2) := by
  induction fields with
  | nil => rfl
  | cons x fields ih =>
    obtain ⟨k, v⟩ := x
    rw [mapFields, ih, List.map_cons]

theorem find?_mapFields (fields : FieldMap Value) (name : String) :
    FieldMap.find? (mapFields g fields) name = (fields.find? name).map (mapRecords g) := by
  rw [mapFields_eq_map]
  exact fields.find?_map (fun _ => mapRecords g) name

/-- A field may be changed before or after it is stored. -/
theorem mapFields_insert (fields : FieldMap Value) (name : String) (v : Value) :
    mapFields g (fields.insert name v) =
      FieldMap.insert (mapFields g fields) name (mapRecords g v) := by
  induction fields with
  | nil => rfl
  | cons x fields ih =>
    -- The names are the same on both sides, so the new entry takes the same place.
    obtain ⟨k, w⟩ := x
    rw [FieldMap.insert, mapFields, FieldMap.insert]
    split
    · rfl
    · split
      · rfl
      · rw [mapFields, ih]

theorem isNull_mapRecords (v : Value) : (mapRecords g v).isNull = v.isNull := by
  cases v with
  | wrapped box => cases box <;> rfl
  | _ => rfl

theorem runtimeType?_mapRecords (v : Value) :
    (mapRecords g v).runtimeType? = v.runtimeType? := by
  cases v <;> rfl

theorem mapRecords_box (q : Primitive) (s : Scalar) : mapRecords g (q.box s) = q.box s := by
  unfold Primitive.box
  split <;> rfl

/-- No default has records in it. -/
theorem mapRecords_default (a : Layout) : mapRecords g a.default = a.default := by
  -- A default holds no record.
  cases a with
  | primitive q =>
    change mapRecords g q.default = q.default
    unfold Primitive.default
    split <;> rfl
  | nullable inner => cases inner <;> rfl
  | _ => rfl

end Value

namespace Layout

variable {known : TypeName → Prop} {a b : Layout}

/-- The fields of a record that come after those it has in another layout. -/
def extraFields (a b : Layout) (name : TypeName) : List (Field Layout) :=
  (b.fieldsOf name).drop (a.fieldsOf name).length

/-- **Layouts that differ only in where their records are spelled out** and in the order of the
members of their groups, all of these records being known. -/
inductive Similar (known : TypeName → Prop) : Layout → Layout → Prop
  | primitive (q : Primitive) : Similar known (.primitive q) (.primitive q)
  | text : Similar known .text .text
  | nullable {a b : Layout} (h : Similar known a b) : Similar known (.nullable a) (.nullable b)
  | list {a b : Layout} (h : Similar known a b) : Similar known (.list a) (.list b)
  /-- A record and a reference to it are similar. -/
  | record {a b : Layout} {name : TypeName} (hknown : known name) (ha : a.recordName? = some name)
      (hb : b.recordName? = some name) : Similar known a b
  /-- Groups with the same tags and types are similar. -/
  | subtypes {group : GroupName} {ms ns : List (Member Layout)}
      (hms : ∀ m ∈ ms, known m.type ∧ ∃ n ∈ ns, n.tag = m.tag ∧ n.type = m.type)
      (hns : ∀ n ∈ ns, ∃ m ∈ ms, m.tag = n.tag ∧ m.type = n.type) :
      Similar known (.subtypes group ms) (.subtypes group ns)

/-- A field stands for another one if it has its name and its version and lies alike. -/
def SimilarField (known : TypeName → Prop) (f g : Field Layout) : Prop :=
  g.name = f.name ∧ g.added = f.added ∧ Similar known f.layout g.layout

namespace Similar

theorem recordName?_eq (h : Similar known a b) : b.recordName? = a.recordName? := by
  cases h with
  | record _ ha hb => rw [ha, hb]
  | _ => rfl

theorem nullValue_eq (h : Similar known a b) : b.nullValue = a.nullValue := by
  cases h with
  | record _ ha hb => cases a <;> cases ha <;> cases b <;> cases hb <;> rfl
  | _ => rfl

/-- Similar layouts have the same default. -/
theorem default_eq (h : Similar known a b) : b.default = a.default := by
  cases h with
  | nullable h => exact h.nullValue_eq
  | record _ ha hb => cases a <;> cases ha <;> cases b <;> cases hb <;> rfl
  | _ => rfl

section Members

variable {group : GroupName} {ms ns : List (Member Layout)}

/-- A group is no record, so that groups are similar says that their members are the same. -/
theorem exists_member (h : Similar known (.subtypes group ms) (.subtypes group ns))
    {m : Member Layout} (hm : m ∈ ms) :
    known m.type ∧ ∃ n ∈ ns, n.tag = m.tag ∧ n.type = m.type := by
  cases h with
  | record _ ha _ => cases ha
  | subtypes hms _ => exact hms m hm

theorem exists_member_of_mem (h : Similar known (.subtypes group ms) (.subtypes group ns))
    {n : Member Layout} (hn : n ∈ ns) :
    ∃ m ∈ ms, m.tag = n.tag ∧ m.type = n.type ∧ known m.type := by
  cases h with
  | record _ ha _ => cases ha
  | subtypes hms hns =>
    obtain ⟨m, hm, htag, htype⟩ := hns n hn
    exact ⟨m, hm, htag, htype, (hms m hm).1⟩

end Members

end Similar

end Layout

end SchemaWire

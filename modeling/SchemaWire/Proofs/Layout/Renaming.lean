import SchemaWire.Proofs.Layout.Nodes
import SchemaWire.Proofs.Lists
/-!
# Renaming

A `Renaming` gives other names to records, to groups, and to the fields of each record, no two of
which become the same. It acts on types, on layouts and on values; the fields of a record value are
sorted by their names, so under new names they come in another order (`Value.renameFields`).

Everything that a layout is asked for goes along with the new names or takes no notice of them
(`Layout.records_rename`, `Layout.versions_rename`, `Layout.dangling?_rename`), and so does looking
up a field of a value under its new name (`Value.find?_renameFields`) and storing one there
(`Value.renameFields_insert`).
-/

namespace SchemaWire

/-- **Other names**, for records, for groups, and for the fields of each record. -/
structure Renaming where
  record : TypeName → TypeName
  group : GroupName → GroupName
  /-- The new name of a field, in the record of the given old name. -/
  field : TypeName → String → String
  record_injective : Function.Injective record
  group_injective : Function.Injective group
  field_injective : ∀ type, Function.Injective (field type)

/-! ### Types -/

/-- A type under new names. -/
def TypeExpr.rename (ρ : Renaming) : TypeExpr → TypeExpr
  | .scalar kind => .scalar kind
  | .wrapped kind => .wrapped kind
  | .text => .text
  | .record name => .record (ρ.record name)
  | .subtypes group => .subtypes (ρ.group group)
  | .nullable inner => .nullable (inner.rename ρ)
  | .list member => .list (member.rename ρ)

theorem TypeExpr.leafKind?_rename (ρ : Renaming) (t : TypeExpr) :
    (t.rename ρ).leafKind? = t.leafKind? := by
  induction t with
  | nullable t ih | list t ih => exact ih
  | _ => rfl

/-! ### Values -/

namespace FieldMap

variable {α : Type}

/-- The names of a map after one more field has been stored. -/
theorem forall_insert_iff {P : String → Prop} {m : FieldMap α} {name : String} {x : α} :
    (∀ f ∈ m.insert name x, P f.1) ↔ P name ∧ ∀ f ∈ m, P f.1 := by
  constructor
  · intro h
    have hname : P name := h _ (mem_of_find?_eq_some (find?_insert_self m name x))
    refine ⟨hname, fun f hf => ?_⟩
    by_cases hsame : name = f.1
    · exact hsame ▸ hname
    · -- A field under another name is still found there.
      cases hfound : m.find? f.1 with
      | none => exact absurd rfl (find?_eq_none_iff.1 hfound f hf)
      | some y =>
        rw [← find?_insert_of_ne hsame] at hfound
        exact h (f.1, y) (mem_of_find?_eq_some hfound)
  · rintro ⟨hname, hm⟩ f hf
    rcases mem_insert hf with rfl | hf
    · exact hname
    · exact hm f hf

end FieldMap

namespace Value

variable {ρ : Renaming} {type : TypeName}

mutual

/-- A value under new names. -/
def rename (ρ : Renaming) : Value → Value
  | .null => .null
  | .scalar s => .scalar s
  | .wrapped box => .wrapped box
  | .text s => .text s
  | .list vs => .list (renameMembers ρ vs)
  | .record type fields => .record (ρ.record type) (renameFields ρ type fields)

/-- The members of a list under new names. -/
def renameMembers (ρ : Renaming) : List Value → List Value
  | [] => []
  | v :: vs => rename ρ v :: renameMembers ρ vs

/-- The fields of a record under new names, sorted by these. -/
def renameFields (ρ : Renaming) (type : TypeName) : List (String × Value) → List (String × Value)
  | [] => []
  | (k, v) :: fields => FieldMap.insert (renameFields ρ type fields) (ρ.field type k) (rename ρ v)

end

theorem rename_list (vs : List Value) : rename ρ (.list vs) = .list (vs.map (rename ρ)) := by
  have hmembers : renameMembers ρ vs = vs.map (rename ρ) := by
    induction vs with
    | nil => rfl
    | cons v vs ih => rw [renameMembers, ih, List.map_cons]
  rw [rename, hmembers]

theorem sorted_renameFields (ρ : Renaming) (type : TypeName) (fields : FieldMap Value) :
    FieldMap.Sorted (renameFields ρ type fields) := by
  induction fields with
  | nil => exact List.Pairwise.nil
  | cons x fields ih => exact ih.insert _ _

/-- **A field is found under its new name.** -/
theorem find?_renameFields (fields : FieldMap Value) (name : String) :
    FieldMap.find? (renameFields ρ type fields) (ρ.field type name) =
      (fields.find? name).map (rename ρ) := by
  induction fields with
  | nil => rfl
  | cons x fields ih =>
    obtain ⟨k, v⟩ := x
    rw [renameFields]
    -- Distinct fields stay distinct, so the insertions do not replace one another.
    by_cases hk : k = name
    · subst hk
      rw [FieldMap.find?_insert_self, FieldMap.find?_cons_self, Option.map_some]
    · have hnew : ρ.field type k ≠ ρ.field type name := fun h => hk (ρ.field_injective type h)
      rw [FieldMap.find?_insert_of_ne hnew, FieldMap.find?_cons_of_ne hk, ih]

/-- There are no names but new ones. -/
theorem forall_renameFields_iff {P : String → Prop} {fields : FieldMap Value} :
    (∀ x ∈ renameFields ρ type fields, P x.1) ↔ ∀ x ∈ fields, P (ρ.field type x.1) := by
  induction fields with
  | nil => simp [renameFields]
  | cons x fields ih =>
    obtain ⟨k, v⟩ := x
    rw [renameFields, FieldMap.forall_insert_iff, ih, List.forall_mem_cons]

/-- **A field may be renamed before or after it is stored.** -/
theorem renameFields_insert (fields : FieldMap Value) (name : String) (v : Value) :
    renameFields ρ type (fields.insert name v) =
      FieldMap.insert (renameFields ρ type fields) (ρ.field type name) (rename ρ v) := by
  have hsorted := sorted_renameFields ρ type
  refine (hsorted _).ext ((hsorted fields).insert _ _) fun other => ?_
  by_cases hother : ∃ k, ρ.field type k = other
  · obtain ⟨k, rfl⟩ := hother
    rw [find?_renameFields]
    by_cases hk : name = k
    · subst hk
      rw [FieldMap.find?_insert_self, FieldMap.find?_insert_self, Option.map_some]
    · have hnew : ρ.field type name ≠ ρ.field type k := fun h => hk (ρ.field_injective type h)
      rw [FieldMap.find?_insert_of_ne hk, FieldMap.find?_insert_of_ne hnew, find?_renameFields]
  · -- A name that is not new is in neither map.
    have hne (k : String) : ρ.field type k ≠ other := fun h => hother ⟨k, h⟩
    have hnone (m : FieldMap Value) : FieldMap.find? (renameFields ρ type m) other = none :=
      FieldMap.find?_eq_none_iff.2 (forall_renameFields_iff (P := (· ≠ other)).2 fun x _ => hne x.1)
    rw [FieldMap.find?_insert_of_ne (hne name), hnone, hnone]

theorem isNull_rename (v : Value) : (rename ρ v).isNull = v.isNull := by
  cases v with
  | wrapped box => cases box <;> rfl
  | _ => rfl

theorem runtimeType?_rename (v : Value) :
    (rename ρ v).runtimeType? = v.runtimeType?.map ρ.record := by
  cases v <;> rfl

theorem rename_box (q : Primitive) (s : Scalar) : rename ρ (q.box s) = q.box s := by
  unfold Primitive.box
  split <;> rfl

/-- No default has names in it. -/
theorem rename_default (a : Layout) : rename ρ a.default = a.default := by
  -- A default is null, or holds nothing that has a name.
  cases a with
  | primitive q =>
    change rename ρ q.default = q.default
    unfold Primitive.default
    split <;> rfl
  | nullable inner => cases inner <;> rfl
  | _ => rfl

end Value

/-! ### Layouts -/

namespace Layout

variable {ρ : Renaming}

mutual

/-- A layout under new names. -/
def rename (ρ : Renaming) : Layout → Layout
  | .primitive q => .primitive q
  | .text => .text
  | .nullable inner => .nullable (inner.rename ρ)
  | .list member => .list (member.rename ρ)
  | .record name fields => .record (ρ.record name) (renameFields ρ name fields)
  | .reference name => .reference (ρ.record name)
  | .subtypes group members => .subtypes (ρ.group group) (renameMembers ρ members)

/-- The fields of a record under new names. -/
def renameFields (ρ : Renaming) (type : TypeName) : List (Field Layout) → List (Field Layout)
  | [] => []
  | ⟨name, added, a⟩ :: fields =>
    ⟨ρ.field type name, added, a.rename ρ⟩ :: renameFields ρ type fields

/-- The members of a group under new names. -/
def renameMembers (ρ : Renaming) : List (Member Layout) → List (Member Layout)
  | [] => []
  | ⟨tag, type, a⟩ :: members => ⟨tag, ρ.record type, a.rename ρ⟩ :: renameMembers ρ members

end

/-- A field of a record under new names. -/
def renameField (ρ : Renaming) (type : TypeName) (f : Field Layout) : Field Layout :=
  ⟨ρ.field type f.name, f.added, f.layout.rename ρ⟩

/-- A member of a group under new names. -/
def renameMember (ρ : Renaming) (m : Member Layout) : Member Layout :=
  ⟨m.tag, ρ.record m.type, m.layout.rename ρ⟩

theorem renameFields_eq_map (type : TypeName) (fields : List (Field Layout)) :
    renameFields ρ type fields = fields.map (renameField ρ type) := by
  induction fields with
  | nil => rfl
  | cons f fields ih => rw [renameFields, ih, List.map_cons, renameField]

theorem renameMembers_eq_map (members : List (Member Layout)) :
    renameMembers ρ members = members.map (renameMember ρ) := by
  induction members with
  | nil => rfl
  | cons m members ih => rw [renameMembers, ih, List.map_cons, renameMember]

theorem rename_record (name : TypeName) (fields : List (Field Layout)) :
    (record name fields).rename ρ = .record (ρ.record name) (fields.map (renameField ρ name)) := by
  rw [rename, renameFields_eq_map]

theorem rename_subtypes (group : GroupName) (members : List (Member Layout)) :
    (subtypes group members).rename ρ =
      .subtypes (ρ.group group) (members.map (renameMember ρ)) := by
  rw [rename, renameMembers_eq_map]

theorem nullValue_rename (a : Layout) : (a.rename ρ).nullValue = a.nullValue := by
  cases a <;> rfl

theorem default_rename (a : Layout) : (a.rename ρ).default = a.default := by
  cases a with
  | nullable inner => exact nullValue_rename inner
  | _ => rfl

theorem rename_nullValue (a : Layout) : a.nullValue.rename ρ = a.nullValue := by
  cases a <;> rfl

/-! ### What is read off the nodes -/

theorem parts_rename (a : Layout) : (a.rename ρ).parts = a.parts.map (rename ρ) := by
  cases a with
  | record name fields =>
    rw [rename_record, parts, parts, List.map_map, List.map_map]
    rfl
  | subtypes group members =>
    rw [rename_subtypes, parts, parts, List.map_map, List.map_map]
    rfl
  | _ => rfl

theorem nodes_rename (a : Layout) : (a.rename ρ).nodes = a.nodes.map (rename ρ) :=
  nodes_map parts_rename a

/-- The records that are spelled out under new names. -/
theorem records_rename (a : Layout) :
    (a.rename ρ).records = a.records.map fun r => (ρ.record r.1, r.2.map (renameField ρ r.1)) := by
  refine records_map parts_rename (fun b => ?_) a
  cases b with
  | record name fields => rw [rename_record, spelled?, spelled?, Option.map_some]
  | _ => rfl

/-- **New names leave the versions.** -/
theorem versions_rename (a : Layout) : (a.rename ρ).versions = a.versions := by
  rw [versions, versions, records_rename, List.flatMap_map]
  simp only [List.map_map]
  rfl

theorem firstDangling?_rename (known : List TypeName) (bs : List Layout) :
    firstDangling? (known.map ρ.record) (bs.map (rename ρ)) =
      (firstDangling? known bs).map ρ.record := by
  induction bs generalizing known with
  | nil => rfl
  | cons b bs ih =>
    -- Only a record that is spelled out makes its name known to what comes behind it.
    cases b with
    | record name fields => exact ih (name :: known)
    | reference name =>
      rw [List.map_cons, rename, firstDangling?, firstDangling?]
      simp only [List.mem_map_of_injective ρ.record_injective]
      split
      · exact ih known
      · rfl
    | primitive _ | text | nullable _ | list _ | subtypes _ _ => exact ih known

theorem dangling?_rename (a : Layout) : (a.rename ρ).dangling? = a.dangling?.map ρ.record := by
  rw [dangling?, dangling?, nodes_rename]
  exact firstDangling?_rename [] a.nodes

end Layout

end SchemaWire

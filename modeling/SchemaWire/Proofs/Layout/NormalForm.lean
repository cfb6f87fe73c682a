import SchemaWire.Proofs.Layout.Snapshot
/-!
# Normal forms

Two things about a value never reach the wire, and reading puts a fixed choice in their place.

* A nullable has two nulls, null itself and the empty box; the layout decides which one is read
  (`Layout.nullForm`).
* A field that is not on the wire may hold anything or be missing; when the record is read it holds
  the default of its layout.

`Snapshot.normalize` makes these choices everywhere in a value, and `Snapshot.IsNormal` says that
they have been made: it does not mention `normalize`, and such a value is its own normal form
(`Snapshot.normalize_eq_self`).

Both go by the value. The fields of a record are laid out as its own type says, so it makes no
difference whether the layout spells the record out, refers to it, or has it as a member of a group.
-/

namespace SchemaWire

namespace Layout

/-- The layout under the nullables around it. -/
def core : Layout → Layout
  | .nullable inner => inner.core
  | a => a

/-- The layout of the members of a list. Layouts of other values have none, and stand for
themselves. -/
def member (a : Layout) : Layout :=
  match a.core with
  | .list member => member
  | a => a

/-- The null that is read where the given one was written. -/
def nullForm (a : Layout) (written : Value) : Value :=
  match a with
  | .nullable inner => inner.nullValue
  | _ => written

theorem isNull_nullValue (a : Layout) : a.nullValue.isNull = true := by cases a <;> rfl

theorem member_nullable (inner : Layout) : (Layout.nullable inner).member = inner.member := by
  unfold member
  rw [core]

end Layout

/-- How a field of the given name is laid out, among some fields. -/
def layoutOf? (fields : List (Field Layout)) (name : String) : Option Layout :=
  (fields.find? (·.name = name)).map (·.layout)

namespace Snapshot

/-- A record made of the fields that are on the wire, as they are found in `fields`, and of the
defaults of those that are not. -/
def complete (s : Snapshot) (type : TypeName) (fields : FieldMap Value) : FieldMap Value :=
  FieldMap.ofList <|
    ((s.present type).map fun f => (f.name, (fields.find? f.name).getD f.layout.default)) ++
      (s.omitted type).map fun f => (f.name, f.layout.default)

mutual

/-- **The normal form of a value** in a layout. -/
def normalize (s : Snapshot) (a : Layout) : Value → Value
  | .null => a.nullForm .null
  | .wrapped none => a.nullForm (.wrapped none)
  | .wrapped (some x) => .wrapped (some x)
  | .scalar x => .scalar x
  | .text t => .text t
  | .list vs => .list (s.normalizeMembers a.member vs)
  | .record type fields =>
    .record type (s.complete type (s.normalizeFields (s.present type) fields))

/-- The normal forms of the members of a list. -/
def normalizeMembers (s : Snapshot) (member : Layout) : List Value → List Value
  | [] => []
  | v :: vs => s.normalize member v :: s.normalizeMembers member vs

/-- The values of a record, those that are on the wire in normal form. -/
def normalizeFields (s : Snapshot) (present : List (Field Layout)) :
    List (String × Value) → List (String × Value)
  | [] => []
  | (k, v) :: fields =>
    (k, match layoutOf? present k with
      | some a => s.normalize a v
      | none => v) :: s.normalizeFields present fields

end

mutual

/-- A value has the form in which it would be read in a layout: nulls are those of their nullables,
and a record has exactly its declared fields, those that are not on the wire at their defaults. -/
def IsNormal (s : Snapshot) (a : Layout) : Value → Prop
  | .null => a.nullForm .null = .null
  | .wrapped none => a.nullForm (.wrapped none) = .wrapped none
  | .wrapped (some _) | .scalar _ | .text _ => True
  | .list vs => s.MembersNormal a.member vs
  | .record type fields =>
    FieldMap.Sorted fields ∧ (∀ x ∈ fields, s.Declares type x.1) ∧
      (∀ f ∈ s.present type, ∃ x, FieldMap.find? fields f.name = some x) ∧
      (∀ f ∈ s.omitted type, FieldMap.find? fields f.name = some f.layout.default) ∧
      s.FieldsNormal (s.present type) fields

/-- Every member of a list has its normal form. -/
def MembersNormal (s : Snapshot) (member : Layout) : List Value → Prop
  | [] => True
  | v :: vs => s.IsNormal member v ∧ s.MembersNormal member vs

/-- Every field that is on the wire holds a normal form. -/
def FieldsNormal (s : Snapshot) (present : List (Field Layout)) : List (String × Value) → Prop
  | [] => True
  | (k, v) :: fields =>
    (match layoutOf? present k with
      | some a => s.IsNormal a v
      | none => True) ∧ s.FieldsNormal present fields

end

variable {s : Snapshot}

/-! ### Looking into lists and records -/

theorem normalizeMembers_eq_map (member : Layout) (vs : List Value) :
    s.normalizeMembers member vs = vs.map (s.normalize member) := by
  induction vs with
  | nil => rfl
  | cons v vs ih => rw [normalizeMembers, ih, List.map_cons]

theorem normalizeFields_eq_map (present : List (Field Layout)) (fields : FieldMap Value) :
    s.normalizeFields present fields = fields.map fun x => (x.1,
      match layoutOf? present x.1 with
      | some a => s.normalize a x.2
      | none => x.2) := by
  induction fields with
  | nil => rfl
  | cons x fields ih =>
    obtain ⟨k, v⟩ := x
    rw [normalizeFields, ih, List.map_cons]

theorem find?_normalizeFields (present : List (Field Layout)) (fields : FieldMap Value)
    (name : String) :
    FieldMap.find? (s.normalizeFields present fields) name =
      (fields.find? name).map fun v =>
        match layoutOf? present name with
        | some a => s.normalize a v
        | none => v := by
  rw [normalizeFields_eq_map]
  exact fields.find?_map (fun k v =>
    match layoutOf? present k with
    | some a => s.normalize a v
    | none => v) name

/-- Fields whose values are their own normal forms stay as they are. -/
theorem normalizeFields_eq_self {present : List (Field Layout)} {fields : FieldMap Value}
    (h : ∀ x ∈ fields, ∀ a, layoutOf? present x.1 = some a → s.normalize a x.2 = x.2) :
    s.normalizeFields present fields = fields := by
  rw [normalizeFields_eq_map]
  refine (List.map_congr_left fun x hx => ?_).trans (List.map_id' fields)
  cases hlaid : layoutOf? present x.1 with
  | none => rfl
  | some a => exact congrArg (x.1, ·) (h x hx a hlaid)

theorem membersNormal_iff {member : Layout} {vs : List Value} :
    s.MembersNormal member vs ↔ ∀ v ∈ vs, s.IsNormal member v := by
  induction vs with
  | nil => simp [MembersNormal]
  | cons v vs ih => simp [MembersNormal, ih]

theorem fieldsNormal_iff {present : List (Field Layout)} {fields : FieldMap Value} :
    s.FieldsNormal present fields ↔
      ∀ x ∈ fields, ∀ a, layoutOf? present x.1 = some a → s.IsNormal a x.2 := by
  induction fields with
  | nil => simp [FieldsNormal]
  | cons x fields ih =>
    obtain ⟨k, v⟩ := x
    rw [FieldsNormal, ih, List.forall_mem_cons]
    refine and_congr_left fun _ => ?_
    -- A field that is not on the wire puts no condition on its value.
    cases layoutOf? present k <;> simp

theorem layoutOf?_eq_some {present : List (Field Layout)} (h : (present.map (·.name)).Nodup)
    {f : Field Layout} (hf : f ∈ present) : layoutOf? present f.name = some f.layout := by
  -- The names are distinct, so the first field of this name is the one meant.
  induction present with
  | nil => cases hf
  | cons g present ih =>
    rw [List.map_cons, List.nodup_cons] at h
    unfold layoutOf? at ih ⊢
    rcases List.mem_cons.1 hf with rfl | hf
    · simp
    · have hne : g.name ≠ f.name := fun e => h.1 (List.mem_map.2 ⟨f, hf, e.symm⟩)
      rw [List.find?_cons_of_neg (by simpa using hne)]
      exact ih h.2 hf

/-! ### What a completed record holds -/

theorem keys_complete (type : TypeName) (fields : FieldMap Value) :
    (((s.present type).map fun f => (f.name, (fields.find? f.name).getD f.layout.default)) ++
      (s.omitted type).map fun f => (f.name, f.layout.default)).map (·.1) =
      (s.present type ++ s.omitted type).map (·.name) := by
  simp [List.map_append, Function.comp_def]

theorem sorted_complete (type : TypeName) (fields : FieldMap Value) :
    (s.complete type fields).Sorted := FieldMap.sorted_ofList _

/-- The names in a completed record are the declared ones. -/
theorem declares_of_mem_complete {type : TypeName} {fields : FieldMap Value} {x : String × Value}
    (hx : x ∈ s.complete type fields) : s.Declares type x.1 := by
  rcases List.mem_append.1 (FieldMap.mem_of_mem_ofList hx) with hx | hx
  · obtain ⟨f, hf, rfl⟩ := List.mem_map.1 hx
    exact ⟨f, .inl hf, rfl⟩
  · obtain ⟨f, hf, rfl⟩ := List.mem_map.1 hx
    exact ⟨f, .inr hf, rfl⟩

section Nodup

variable {type : TypeName} (h : ((s.present type ++ s.omitted type).map (·.name)).Nodup)
include h

theorem find?_complete_present {f : Field Layout} (hf : f ∈ s.present type)
    (fields : FieldMap Value) :
    (s.complete type fields).find? f.name =
      some ((fields.find? f.name).getD f.layout.default) := by
  refine (FieldMap.find?_ofList_eq_some_iff (keys_complete type fields ▸ h)).2 ?_
  exact List.mem_append_left _ (List.mem_map.2 ⟨f, hf, rfl⟩)

theorem find?_complete_omitted {f : Field Layout} (hf : f ∈ s.omitted type)
    (fields : FieldMap Value) :
    (s.complete type fields).find? f.name = some f.layout.default := by
  refine (FieldMap.find?_ofList_eq_some_iff (keys_complete type fields ▸ h)).2 ?_
  exact List.mem_append_right _ (List.mem_map.2 ⟨f, hf, rfl⟩)

/-- A sorted record with exactly the declared fields, those that are not on the wire at their
defaults, is complete already. -/
theorem complete_eq_self {fields : FieldMap Value} (hsorted : fields.Sorted)
    (hdeclared : ∀ x ∈ fields, s.Declares type x.1)
    (hpresent : ∀ f ∈ s.present type, ∃ x, fields.find? f.name = some x)
    (homitted : ∀ f ∈ s.omitted type, fields.find? f.name = some f.layout.default) :
    s.complete type fields = fields := by
  -- Both are sorted, so they are equal if every name is answered alike.
  refine FieldMap.Sorted.ext (sorted_complete type fields) hsorted fun name => ?_
  by_cases hname : s.Declares type name
  · obtain ⟨f, hf | hf, rfl⟩ := hname
    · obtain ⟨x, hx⟩ := hpresent f hf
      rw [find?_complete_present h hf, hx, Option.getD_some]
    · rw [find?_complete_omitted h hf, homitted f hf]
  · have hcomplete : ∀ x ∈ s.complete type fields, x.1 ≠ name := by
      rintro x hx rfl
      exact hname (declares_of_mem_complete hx)
    have hfields : ∀ x ∈ fields, x.1 ≠ name := by
      rintro x hx rfl
      exact hname (hdeclared x hx)
    rw [FieldMap.find?_eq_none_iff.2 hcomplete, FieldMap.find?_eq_none_iff.2 hfields]

end Nodup

/-- **A value that has the form of what is read is its own normal form.** -/
theorem normalize_eq_self
    (hnames : ∀ type, ((s.present type ++ s.omitted type).map (·.name)).Nodup) {a : Layout}
    {v : Value} (h : s.IsNormal a v) : s.normalize a v = v := by
  -- By induction on the value: each part is in its normal form already.
  induction v generalizing a with
  | null => exact h
  | scalar x => rfl
  | wrapped box =>
    cases box with
    | none => exact h
    | some x => rfl
  | text t => rfl
  | list vs ih =>
    rw [IsNormal, membersNormal_iff] at h
    rw [normalize, normalizeMembers_eq_map]
    congr 1
    exact (List.map_congr_left fun v hv => ih v hv (h v hv)).trans (List.map_id vs)
  | record type fields ih =>
    obtain ⟨hsorted, hdeclared, hpresent, homitted, hfields⟩ := h
    have hself : s.normalizeFields (s.present type) fields = fields :=
      normalizeFields_eq_self fun x hx a ha => ih x hx (fieldsNormal_iff.1 hfields x hx a ha)
    rw [normalize, hself, complete_eq_self (hnames type) hsorted hdeclared hpresent homitted]

end Snapshot

end SchemaWire

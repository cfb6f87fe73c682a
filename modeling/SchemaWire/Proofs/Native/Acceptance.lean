import SchemaWire.Proofs.Layout.Nesting
import SchemaWire.Proofs.Layout.NormalForm
import SchemaWire.Proofs.Native.Layout
/-!
# Which native data is accepted, and how it is read back

A native type and its layout always go together, so the value of native data conforms to the layout
in everything that the layout says about shapes. What is left are the bounds that depend on the
data: the nesting of records, the lengths of texts and lists, and the number of members that take no
bytes (`NativeTypes.admits_toValue_iff`).

When it is read back, the value has its normal form, where nulls are those of the layout. Native
data does not see the difference (`NativeTypes.ofValue_normalize`).
-/

namespace SchemaWire

namespace Value

mutual

/-- No text and no list in a value is longer than a length on the wire can say. -/
def LengthsFit : Value → Prop
  | .text s => s.toUTF8.size < 2 ^ 32
  | .list vs => vs.length < 2 ^ 32 ∧ MembersFit vs
  | .record _ fields => FieldsFit fields
  | .null | .scalar _ | .wrapped _ => True

/-- The lengths in every member fit. -/
def MembersFit : List Value → Prop
  | [] => True
  | v :: vs => v.LengthsFit ∧ MembersFit vs

/-- The lengths in every field fit. -/
def FieldsFit : List (String × Value) → Prop
  | [] => True
  | (_, v) :: fields => v.LengthsFit ∧ FieldsFit fields

end

mutual

def decideLengthsFit : (v : Value) → Decidable v.LengthsFit
  | .text s => inferInstanceAs (Decidable (s.toUTF8.size < 2 ^ 32))
  | .list vs =>
    have := decideMembersFit vs
    inferInstanceAs (Decidable (vs.length < 2 ^ 32 ∧ MembersFit vs))
  | .record _ fields => decideFieldsFit fields
  | .null | .scalar _ | .wrapped _ => isTrue trivial

def decideMembersFit : (vs : List Value) → Decidable (MembersFit vs)
  | [] => isTrue trivial
  | v :: vs =>
    have := v.decideLengthsFit
    have := decideMembersFit vs
    inferInstanceAs (Decidable (v.LengthsFit ∧ MembersFit vs))

def decideFieldsFit : (fields : List (String × Value)) → Decidable (FieldsFit fields)
  | [] => isTrue trivial
  | (_, v) :: fields =>
    have := v.decideLengthsFit
    have := decideFieldsFit fields
    inferInstanceAs (Decidable (v.LengthsFit ∧ FieldsFit fields))

end

instance (v : Value) : Decidable v.LengthsFit := v.decideLengthsFit

theorem lengthsFit_list_iff {vs : List Value} :
    (list vs).LengthsFit ↔ vs.length < 2 ^ 32 ∧ ∀ v ∈ vs, v.LengthsFit := by
  have hmembers : ∀ vs, MembersFit vs ↔ ∀ v ∈ vs, v.LengthsFit := by
    intro vs
    induction vs with
    | nil => simp [MembersFit]
    | cons v vs ih => rw [MembersFit, ih, List.forall_mem_cons]
  rw [LengthsFit, hmembers]

theorem lengthsFit_record_iff {type : TypeName} {fields : FieldMap Value} :
    (record type fields).LengthsFit ↔ ∀ y ∈ fields, y.2.LengthsFit := by
  rw [LengthsFit]
  induction fields with
  | nil => simp [FieldsFit]
  | cons y fields ih => rw [FieldsFit, ih, List.forall_mem_cons]

/-- A null is within all bounds. -/
theorem within_of_isNull {v : Value} (h : v.isNull = true) (n : Nat) :
    v.nesting ≤ n ∧ v.LengthsFit := by
  obtain rfl | rfl := Program.isNull_iff.1 h
  all_goals exact ⟨Nat.zero_le n, trivial⟩

end Value

namespace Snapshot

/-- A field that is on the wire holds its normal form when it is read back. -/
theorem find?_normalized {s : Snapshot} {type : TypeName}
    (hnames : ((s.present type ++ s.omitted type).map (·.name)).Nodup) {f : Field Layout}
    (hf : f ∈ s.present type) {fields : FieldMap Value} {v : Value}
    (hv : fields.find? f.name = some v) :
    (s.complete type (s.normalizeFields (s.present type) fields)).find? f.name =
      some (s.normalize f.layout v) := by
  have hpresent : ((s.present type).map (·.name)).Nodup :=
    hnames.sublist ((List.sublist_append_left _ _).map _)
  rw [find?_complete_present hnames hf, find?_normalizeFields, hv,
    layoutOf?_eq_some hpresent hf]
  rfl

/-- Normal forms of nulls are nulls, and nothing else is. -/
theorem isNull_normalize (s : Snapshot) (a : Layout) (v : Value) :
    (s.normalize a v).isNull = v.isNull := by
  -- The null form of a null value is a null value again.
  have hform : ∀ w : Value, w.isNull = true → (a.nullForm w).isNull = true := by
    intro w hw
    cases a with
    | nullable inner => exact inner.isNull_nullValue
    | primitive _ | text | list _ | record _ _ | reference _ | subtypes _ _ => exact hw
  cases v with
  | null => exact hform .null rfl
  | wrapped box =>
    cases box with
    | none => exact hform (.wrapped none) rfl
    | some x => rfl
  | scalar _ | text _ | list _ | record _ _ => rfl

end Snapshot

/-- **No list in data has more members without bytes** than lists may have. -/
def NativeData.CountsFit {Γ : NativeTypes} : {t : NativeType Γ.count} → NativeData Γ t → Prop
  | _, .scalar _ | _, .text _ | _, .none => True
  | _, .some x | _, .boxed x => x.CountsFit
  | .list member, .list (n := n) xs =>
    (Γ.Weightless member → n ≤ Program.maxEmptyMembers) ∧ ∀ j, (xs j).CountsFit
  | _, .record xs => ∀ j, (xs j).CountsFit

namespace NativeTypes

variable {Γ : NativeTypes} {t : NativeType Γ.count} {i : Fin Γ.count} {s : Schema}
  {tagEncoding : TagEncoding} {varLength : Bool} {σ : Snapshot} {a : Layout} {v : Value} {room : Nat}

/-! ### Acceptance -/

/-- An option over a layout without boxes accepts what the layout accepts. -/
theorem Unboxed.admits_asNullable_iff (h : Unboxed a v) {record : TypeName → Value → Prop} :
    a.asNullable.Admits σ record v ↔ a.Admits σ record v := by
  -- Only a null is accepted in addition, and an unboxed value of a layout without one is not null.
  have hcover (hnull : a.isNullable = false) : (Layout.nullable a).Admits σ record v ↔
      a.Admits σ record v := by
    rw [Layout.Admits, h.isNull hnull]
    simp
  cases a with
  | primitive q => exact absurd rfl (h.layout q)
  | nullable inner => exact Iff.rfl
  | text | list _ | record _ _ | reference _ | subtypes _ _ => exact hcover rfl

section Fields

variable {xs : (j : Fin (Γ.record i).fields.length) →
  NativeData Γ ((Γ.record i).fields.get j).type}

/-- A record nests one more than its fields do. -/
theorem nesting_fieldMap_le_succ_iff {name : TypeName} {n : Nat} :
    (Value.record name (Γ.fieldMap xs)).nesting ≤ n + 1 ↔ ∀ j, (xs j).toValue.nesting ≤ n := by
  unfold Value.nesting
  rw [Value.nestingAlong_record_le_succ_iff]
  -- The fields of the map are those of the declaration.
  constructor
  · intro h j
    exact h _ rfl _ (find?_fieldMap j)
  · intro h name _ v hv
    obtain ⟨j, heq⟩ := mem_fieldMap_iff.1 (FieldMap.mem_of_find?_eq_some hv)
    cases heq
    exact h j

theorem lengthsFit_fieldMap_iff {name : TypeName} :
    (Value.record name (Γ.fieldMap xs)).LengthsFit ↔ ∀ j, (xs j).toValue.LengthsFit := by
  rw [Value.lengthsFit_record_iff]
  -- Every entry of the map is the value of one field, and the other way round.
  constructor
  · intro h j
    exact h _ (mem_fieldMap_iff.2 ⟨j, rfl⟩)
  · intro h y hy
    obtain ⟨j, rfl⟩ := mem_fieldMap_iff.1 hy
    exact h j

/-- **A record of a native type conforms** if its fields do. -/
theorem recordConforms_fieldMap_iff (hlays : Γ.Lays σ s tagEncoding i)
    {accepted : (j : Fin (Γ.record i).fields.length) → Prop}
    (h : ∀ j varLength b,
      s.Lays tagEncoding varLength (Γ.typeExpr ((Γ.record i).fields.get j).type) b →
        (b.Admits σ (σ.RecordConforms room) (xs j).toValue ↔ accepted j)) :
    σ.RecordConforms (room + 1) (Γ.record i).name (.record (Γ.record i).name (Γ.fieldMap xs)) ↔
      ∀ j, accepted j := by
  rw [Snapshot.RecordConforms]
  constructor
  · rintro ⟨_, ⟨⟩, -, hadmits⟩ j
    obtain ⟨f, hf, hname, varLength, hlaid⟩ := hlays.laid _ (List.get_mem _ j)
    obtain ⟨v, hv, hadmitted⟩ := hadmits f hf
    rw [hname, find?_fieldMap j] at hv
    cases hv
    exact (h j varLength f.layout hlaid).1 hadmitted
  · intro haccepted
    refine ⟨Γ.fieldMap xs, rfl, fun y hy => ?_, fun f hf => ?_⟩
    · -- No field is undeclared, since all native fields are laid out.
      obtain ⟨j, rfl⟩ := mem_fieldMap_iff.1 hy
      obtain ⟨f, hf, hname, -⟩ := hlays.laid _ (List.get_mem _ j)
      exact ⟨f, .inl hf, hname⟩
    · obtain ⟨g, hg, hname, varLength, hlaid⟩ := hlays.native f hf
      obtain ⟨j, rfl⟩ := List.get_of_mem hg
      refine ⟨_, hname ▸ find?_fieldMap j, ?_⟩
      exact (h j varLength f.layout hlaid).2 (haccepted j)

end Fields

/-- A null is admitted where something may be missing, and is within all bounds. -/
theorem admits_null_iff {P : Prop} (hP : P) (hv : v.isNull = true)
    {record : TypeName → Value → Prop} :
    a.asNullable.Admits σ record v ↔ v.nesting ≤ room ∧ v.LengthsFit ∧ P := by
  obtain ⟨inner, hinner⟩ := exists_asNullable a
  obtain ⟨hnesting, hlengths⟩ := Value.within_of_isNull hv room
  rw [hinner]
  exact iff_of_true (.inl hv) ⟨hnesting, hlengths, hP⟩

/-- **Which native data is accepted**: all of it, within the bounds on nesting, on lengths, and on
members without bytes. By induction on the data. -/
theorem admits_toValue_iff (h : s.Lays tagEncoding varLength (Γ.typeExpr t) a)
    (hrecords : ∀ i, Γ.Needs t i → Γ.Lays σ s tagEncoding i) (x : NativeData Γ t) :
    a.Admits σ (σ.RecordConforms room) x.toValue ↔
      x.toValue.nesting ≤ room ∧ x.toValue.LengthsFit ∧ x.CountsFit := by
  induction x generalizing a varLength room with
  | @scalar kind x =>
    cases h with
    | scalar =>
      exact iff_of_true ⟨⟨kind, x⟩, rfl, rfl⟩ ⟨Nat.zero_le room, trivial, trivial⟩
  | text t =>
    cases h with
    | text =>
      refine ⟨?_, fun hfit => ⟨t, rfl, hfit.2.1⟩⟩
      rintro ⟨_, ⟨⟩, hsize⟩
      exact ⟨Nat.zero_le room, hsize, trivial⟩
  | none =>
    cases h with
    | nullable h => exact admits_null_iff trivial (Γ.isNull_absent _)
  | some x ih =>
    cases h with
    | @nullable _ b h =>
      obtain ⟨q, y, rfl, hbare, hkind, hy⟩ | hunboxed := shape_toValue h x
      · -- A scalar in a box, in a primitive that has been boxed.
        have hx : Layout.Admits σ (σ.RecordConforms room) _ _ ↔ _ :=
          ih h fun i hi => hrecords i (hi.of_record? rfl)
        rw [hy] at hx
        have hbox : q.box y = .scalar y := by rw [Primitive.box, hbare]; rfl
        have hcounts : x.CountsFit := (hx.1 ⟨y, hbox.symm, hkind⟩).2.2
        rw [NativeData.toValue, hy]
        exact iff_of_true (.inr ⟨y, rfl, hkind⟩) ⟨Nat.zero_le room, trivial, hcounts⟩
      · rw [NativeData.toValue, hunboxed.boxed, hunboxed.admits_asNullable_iff]
        exact ih h fun i hi => hrecords i (hi.of_record? rfl)
  | @list member n xs ih =>
    cases h with
    | list h =>
      have hneeds : ∀ i, Γ.Needs member i → Γ.Lays σ s tagEncoding i :=
        fun i hi => hrecords i (hi.of_record? rfl)
      rw [NativeData.toValue, Layout.Admits, Value.lengthsFit_list_iff, weightlessMember_iff h hneeds,
        NativeData.CountsFit]
      unfold Value.nesting
      rw [Value.nestingAlong_list_le_iff]
      simp only [Value.list.injEq, exists_eq_left', List.length_ofFn, List.forall_mem_ofFn_iff]
      constructor
      · rintro ⟨hlength, hcount, hadmits⟩
        have hwithin := fun j => (ih j h hneeds).1 (hadmits j)
        exact ⟨fun j => (hwithin j).1, ⟨hlength, fun j => (hwithin j).2.1⟩, hcount,
          fun j => (hwithin j).2.2⟩
      · rintro ⟨hnesting, ⟨hlength, hfit⟩, hcount, hcounts⟩
        exact ⟨hlength, hcount, fun j => (ih j h hneeds).2 ⟨hnesting j, hfit j, hcounts j⟩⟩
  | boxed x ih => exact ih h fun i hi => hrecords i (hi.of_record? rfl)
  | @record i xs ih =>
    cases h with
    | record hname =>
      have hadmits : a.Admits σ (σ.RecordConforms room) (NativeData.record xs).toValue ↔
          σ.RecordConforms room (Γ.record i).name
            (.record (Γ.record i).name (Γ.fieldMap xs)) := by
        cases a <;> cases hname <;> rfl
      rw [hadmits]
      -- A record takes one level, and leaves one less to its fields.
      cases room with
      | zero =>
        refine iff_of_false id fun hfit => ?_
        exact absurd hfit.1 (Nat.not_le.2 Value.nestingAlong_record_pos)
      | succ room =>
        have hfields : _ ↔ ∀ j, (xs j).toValue.nesting ≤ room ∧ (xs j).toValue.LengthsFit ∧
            (xs j).CountsFit :=
          recordConforms_fieldMap_iff (hrecords i (.self rfl)) fun j _ b hb => ih j hb fun k hk =>
            hrecords k (.field rfl (List.get_mem _ j) hk)
        rw [hfields, forall_and, forall_and]
        exact and_congr nesting_fieldMap_le_succ_iff.symm
          (and_congr lengthsFit_fieldMap_iff.symm Iff.rfl)

/-! ### Reading back -/

/-- Whether the layout is one of an option does not show in the normal form of what is there. -/
theorem Unboxed.normalize_asNullable (h : Unboxed a v) (σ : Snapshot) :
    σ.normalize a.asNullable v = σ.normalize a v := by
  -- Only a null is changed by the cover, and the value is none.
  have hcover (hnull : a.isNullable = false) : σ.normalize (.nullable a) v = σ.normalize a v := by
    have hv := h.isNull hnull
    cases v with
    | null => cases hv
    | wrapped box =>
      cases box with
      | none => cases hv
      | some x => rfl
    | list vs => rw [Snapshot.normalize, Snapshot.normalize, Layout.member_nullable]
    | scalar _ | text _ | record _ _ => rfl
  cases a with
  | primitive q => exact absurd rfl (h.layout q)
  | nullable inner => rfl
  | text | list _ | record _ _ | reference _ | subtypes _ _ => exact hcover rfl

/-- **Native data is read back from the normal form of its value**, collapsed. By induction on the
data: the normal form differs from the value in the form of its nulls and in the order of fields,
neither of which is looked at. -/
theorem ofValue_normalize
    (hnames : ∀ name, ((σ.present name ++ σ.omitted name).map (·.name)).Nodup)
    (h : s.Lays tagEncoding varLength (Γ.typeExpr t) a)
    (hrecords : ∀ i, Γ.Needs t i → Γ.Lays σ s tagEncoding i) (x : NativeData Γ t) :
    Γ.ofValue t (σ.normalize a x.toValue) = .ok x.collapse := by
  induction x generalizing a varLength with
  | scalar x => exact ofValue_toValue (.scalar x)
  | text s => exact ofValue_toValue (.text s)
  | none =>
    -- Whatever form of null the layout has, it is read as the empty option.
    refine ofValue_optional ?_ nofun
    rw [Snapshot.isNull_normalize]
    exact Γ.isNull_absent _
  | some x ih =>
    cases h with
    | nullable h =>
      refine ofValue_optional ?_ ?_
      · rw [Snapshot.isNull_normalize]
        exact (NativeData.some x).isNull_toValue
      · rintro y ⟨⟩
        rw [NativeData.toValue]
        obtain ⟨q, y, -, -, -, hy⟩ | hunboxed := shape_toValue h x
        · -- The box of a scalar is its own normal form.
          have hread := (ofValue_boxed_toValue x).trans (ofValue_toValue x)
          rw [hy] at hread ⊢
          exact hread
        · rw [hunboxed.boxed, hunboxed.normalize_asNullable]
          exact ih h fun i hi => hrecords i (hi.of_record? rfl)
  | list xs ih =>
    cases h with
    | list h =>
      rw [NativeData.toValue, Snapshot.normalize, Snapshot.normalizeMembers_eq_map, List.map_ofFn]
      exact ofValue_list fun j => ih j h fun i hi => hrecords i (hi.of_record? rfl)
  | boxed x ih =>
    rw [ofValue, NativeData.toValue, ih h fun i hi => hrecords i (hi.of_record? rfl)]
    rfl
  | @record i xs ih =>
    have hlays := hrecords i (.self rfl)
    have hvalue : (NativeData.record xs).toValue = .record (Γ.record i).name (Γ.fieldMap xs) := rfl
    rw [hvalue, Snapshot.normalize]
    refine ofValue_record fun j => ?_
    -- The field has been laid out somewhere, and it is found under its name.
    obtain ⟨f, hf, hname, _, hlaid⟩ := hlays.laid _ (List.get_mem _ j)
    refine ⟨σ.normalize f.layout (xs j).toValue, ?_, ?_⟩
    · rw [← hname]
      exact Snapshot.find?_normalized (hnames _) hf (hname ▸ find?_fieldMap j)
    · exact ih j hlaid fun k hk => hrecords k (.field rfl (List.get_mem _ j) hk)

end NativeTypes

end SchemaWire

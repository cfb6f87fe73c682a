import SchemaWire.Proofs.Program.Conformance
import SchemaWire.Proofs.Program.Soundness
/-!
# Values at a later version

A value that has been read at one version holds the default of every field that is only on the wire
at a later one. Whether the later version takes the value depends on these defaults alone: all that
the value has had to show at the earlier version it still shows, and a bound on a list of members
without bytes can only be lifted.

* `Layout.lacksDefault` are the layouts whose default is none of their values
  (`Layout.admits_default_iff`), and `Layout.Upgradable` says that no record in a value would have
  to write such a default.
* `Layout.admits_later_iff` — the later version takes the value exactly if it is upgradable. The
  defaults are found record by record, so the proof goes through layouts first
  (`Layout.admits_later_iff_of`) and then through records (`Layout.recordConforms_later_iff`).
* `Layout.isNormal_later` — the value has its normal form at the later version too, whether or not
  it is taken there: what was a default is now a value like any other.
-/

namespace SchemaWire

namespace Value

mutual

/-- The types of all records in a value, at whatever depth. -/
def recordTypes : Value → List TypeName
  | .list vs => memberRecordTypes vs
  | .record type fields => type :: fieldRecordTypes fields
  | .null | .scalar _ | .wrapped _ | .text _ => []

/-- The types of all records in the members of a list. -/
def memberRecordTypes : List Value → List TypeName
  | [] => []
  | v :: vs => v.recordTypes ++ memberRecordTypes vs

/-- The types of all records in the fields of a record. -/
def fieldRecordTypes : List (String × Value) → List TypeName
  | [] => []
  | (_, v) :: fields => v.recordTypes ++ fieldRecordTypes fields

end

variable {type : TypeName}

theorem mem_recordTypes_list {vs : List Value} :
    type ∈ (list vs).recordTypes ↔ ∃ v ∈ vs, type ∈ v.recordTypes := by
  rw [recordTypes]
  induction vs with
  | nil => simp [memberRecordTypes]
  | cons v vs ih => simp [memberRecordTypes, ih]

theorem mem_recordTypes_record {name : TypeName} {fields : List (String × Value)} :
    type ∈ (record name fields).recordTypes ↔
      type = name ∨ ∃ x ∈ fields, type ∈ x.2.recordTypes := by
  rw [recordTypes, List.mem_cons]
  refine or_congr_right ?_
  induction fields with
  | nil => simp [fieldRecordTypes]
  | cons x fields ih => simp [fieldRecordTypes, ih]

/-- Records are in lists and records only. -/
theorem recordTypes_box {q : Primitive} {x : Scalar} : (q.box x).recordTypes = [] := by
  unfold Primitive.box
  split <;> rfl

theorem recordTypes_of_isNull {v : Value} (h : v.isNull = true) : v.recordTypes = [] := by
  cases v with
  | null | wrapped _ => rfl
  | scalar _ | text _ | list _ | record _ _ => cases h

end Value

theorem Snapshot.not_recordConforms_null {s : Snapshot} {room : Nat} {name : TypeName} :
    ¬s.RecordConforms room name .null := by
  cases room with
  | zero => exact id
  | succ room =>
    rintro ⟨_, hrecord, -⟩
    cases hrecord

namespace Layout

variable {root a : Layout} {v w : Version} {x : Value} {name : TypeName} {room : Nat}

/-! ### Defaults -/

/-- The default of the layout is none of its values: a record stands at null, and a boxed scalar at
the empty box. -/
def lacksDefault : Layout → Bool
  | .primitive q => q.wrapped
  | .record _ _ | .reference _ | .subtypes _ _ => true
  | .text | .nullable _ | .list _ => false

theorem recordTypes_default (a : Layout) : a.default.recordTypes = [] := by
  cases a with
  | primitive q =>
    rw [default, Primitive.default]
    split <;> rfl
  | nullable inner => exact Value.recordTypes_of_isNull inner.isNull_nullValue
  | text | list _ | record _ _ | reference _ | subtypes _ _ => rfl

theorem isNormal_default (s : Snapshot) (a : Layout) : s.IsNormal a a.default := by
  cases a with
  | primitive q =>
    rw [default, Primitive.default]
    split <;> trivial
  | nullable inner => exact Program.isNormal_nullValue s inner
  | text | list _ => trivial
  | record _ _ | reference _ | subtypes _ _ => rfl

/-- **A default is admitted** unless the layout lacks one, if null is no record. -/
theorem admits_default_iff {s : Snapshot} {record : TypeName → Value → Prop}
    (hrecord : ∀ name, ¬record name .null) :
    a.Admits s record a.default ↔ a.lacksDefault = false := by
  -- The default is null, empty or zero. That is a value of every layout but a bare record, a group
  -- and a wrapped primitive.
  cases a with
  | primitive q =>
    simp only [Admits, default, Primitive.default, Primitive.box, lacksDefault]
    cases q.wrapped with
    | true => simp
    | false => exact iff_of_true ⟨q.kind.zero, rfl, ScalarKind.kind_zero _⟩ rfl
  | text => exact iff_of_true ⟨"", rfl, by decide⟩ rfl
  | nullable inner => exact iff_of_true (.inl inner.isNull_nullValue) rfl
  | list member =>
    exact iff_of_true ⟨[], rfl, by decide, fun _ => Nat.zero_le _, List.forall_mem_nil _⟩ rfl
  | record name _ => exact iff_of_false (hrecord name) Bool.noConfusion
  | reference name => exact iff_of_false (hrecord name) Bool.noConfusion
  | subtypes group members =>
    refine iff_of_false ?_ Bool.noConfusion
    rintro ⟨m, -, htype, -⟩
    cases htype

/-! ### What a later version adds -/

/-- **A value can be upgraded** from one version to another if no record in it has a field that is
added in between and lacks a default. -/
def Upgradable (root : Layout) (v w : Version) (x : Value) : Prop :=
  ∀ type ∈ x.recordTypes, ∀ f ∈ root.fieldsOf type, v < f.added → f.added ≤ w →
    f.layout.lacksDefault = false

instance (root : Layout) (v w : Version) (x : Value) : Decidable (root.Upgradable v w x) :=
  inferInstanceAs (Decidable (∀ type ∈ x.recordTypes, ∀ f ∈ root.fieldsOf type, _ → _ → _))

theorem upgradable_of_recordTypes_eq_nil (h : x.recordTypes = []) : root.Upgradable v w x := by
  intro type htype
  rw [h] at htype
  cases htype

theorem upgradable_list_iff {vs : List Value} :
    root.Upgradable v w (.list vs) ↔ ∀ x ∈ vs, root.Upgradable v w x := by
  constructor
  · intro h x hx type htype
    exact h type (Value.mem_recordTypes_list.2 ⟨x, hx, htype⟩)
  · intro h type htype
    obtain ⟨x, hx, htype⟩ := Value.mem_recordTypes_list.1 htype
    exact h x hx type htype

theorem upgradable_record_iff {fields : List (String × Value)} :
    root.Upgradable v w (.record name fields) ↔
      (∀ f ∈ root.fieldsOf name, v < f.added → f.added ≤ w → f.layout.lacksDefault = false) ∧
        ∀ x ∈ fields, root.Upgradable v w x.2 := by
  constructor
  -- The types in a record are its own and those in its fields.
  · intro h
    refine ⟨h name (Value.mem_recordTypes_record.2 (.inl rfl)), fun x hx type htype => ?_⟩
    exact h type (Value.mem_recordTypes_record.2 (.inr ⟨x, hx, htype⟩))
  · rintro ⟨hself, hfields⟩ type htype
    rcases Value.mem_recordTypes_record.1 htype with rfl | ⟨x, hx, htype⟩
    · exact hself
    · exact hfields x hx type htype

theorem mem_present_snapshot {f : Field Layout} :
    f ∈ (root.snapshot v).present name ↔ f ∈ root.fieldsOf name ∧ f.added ≤ v := by
  simp [snapshot]

theorem mem_omitted_snapshot {f : Field Layout} :
    f ∈ (root.snapshot v).omitted name ↔ f ∈ root.fieldsOf name ∧ v < f.added := by
  simp [snapshot]

/-- The layout of a field that is on the wire is found by its name. -/
theorem layoutOf?_snapshot (hnames : ∀ name, ((root.fieldsOf name).map (·.name)).Nodup)
    {f : Field Layout} (hf : f ∈ (root.snapshot v).present name) :
    layoutOf? ((root.snapshot v).present name) f.name = some f.layout :=
  Snapshot.layoutOf?_eq_some ((hnames name).sublist (List.filter_sublist.map _)) hf

theorem declares_snapshot_iff {field : String} :
    (root.snapshot v).Declares name field ↔ ∃ f ∈ root.fieldsOf name, f.name = field :=
  (Program.ofLayout root v Level.level1.format .u8).declares_iff

/-- In a normal form only the fields that are on the wire have to be looked into, as the others hold
defaults. -/
theorem upgradable_record_iff_of_isNormal {fields : FieldMap Value}
    (h : (root.snapshot v).IsNormal a (.record name fields)) :
    root.Upgradable v w (.record name fields) ↔ ∀ f ∈ root.fieldsOf name,
      (f.added ≤ v → ∀ y, fields.find? f.name = some y → root.Upgradable v w y) ∧
        (v < f.added → f.added ≤ w → f.layout.lacksDefault = false) := by
  obtain ⟨hsorted, hdeclared, -, homitted, -⟩ := h
  rw [upgradable_record_iff]
  constructor
  · rintro ⟨hself, hfields⟩ f hf
    exact ⟨fun _ y hy => hfields _ (FieldMap.mem_of_find?_eq_some hy), hself f hf⟩
  · intro h
    refine ⟨fun f hf => (h f hf).2, fun x hx => ?_⟩
    obtain ⟨f, hf, hname⟩ := declares_snapshot_iff.1 (hdeclared x hx)
    have hfound : fields.find? f.name = some x.2 := hsorted.find?_eq_some_iff.2 (hname ▸ hx)
    by_cases hv : f.added ≤ v
    · exact (h f hf).1 hv _ hfound
    · -- A default has no records in it.
      have hdefault := homitted f (mem_omitted_snapshot.2 ⟨hf, UInt32.not_le.1 hv⟩)
      rw [← Option.some.inj (hdefault.symm.trans hfound)]
      exact upgradable_of_recordTypes_eq_nil f.layout.recordTypes_default

section Later

variable (hle : v ≤ w)
include hle

/-- A record that puts no byte on the wire has put none there before. -/
theorem weightless_earlier (h : (root.snapshot w).Weightless name) :
    (root.snapshot v).Weightless name := by
  induction h with
  | @mk name hrecord _ ih =>
    -- A field that is there at the earlier version is there at the later one.
    have hstays : ∀ f ∈ (root.snapshot v).present name, f ∈ (root.snapshot w).present name := by
      intro f hf
      obtain ⟨hf, hadded⟩ := mem_present_snapshot.1 hf
      exact mem_present_snapshot.2 ⟨hf, UInt32.le_trans hadded hle⟩
    exact .mk (fun f hf => hrecord f (hstays f hf)) fun f hf => ih f (hstays f hf)

/-- **A normal form is one at later versions too.** -/
theorem isNormal_later (hnames : ∀ name, ((root.fieldsOf name).map (·.name)).Nodup)
    (h : (root.snapshot v).IsNormal a x) : (root.snapshot w).IsNormal a x := by
  -- By induction on the value, since the parts of a list or record are normal for layouts of their
  -- own.
  induction x generalizing a with
  | null => exact h
  | scalar _ | text _ => trivial
  | wrapped box =>
    cases box with
    | none => exact h
    | some _ => trivial
  | list vs ih =>
    rw [Snapshot.IsNormal, Snapshot.membersNormal_iff] at h ⊢
    exact fun y hy => ih y hy (h y hy)
  | record name fields ih =>
    obtain ⟨hsorted, hdeclared, hpresent, homitted, hfields⟩ := h
    refine ⟨hsorted, fun y hy => ?_, fun f hf => ?_, fun f hf => ?_, ?_⟩
    · exact declares_snapshot_iff.2 (declares_snapshot_iff.1 (hdeclared y hy))
    -- A field that becomes part of the wire has been holding its default.
    · obtain ⟨hf, -⟩ := mem_present_snapshot.1 hf
      by_cases hadded : f.added ≤ v
      · exact hpresent f (mem_present_snapshot.2 ⟨hf, hadded⟩)
      · exact ⟨_, homitted f (mem_omitted_snapshot.2 ⟨hf, UInt32.not_le.1 hadded⟩)⟩
    · obtain ⟨hf, hadded⟩ := mem_omitted_snapshot.1 hf
      exact homitted f (mem_omitted_snapshot.2 ⟨hf, UInt32.lt_of_le_of_lt hle hadded⟩)
    · refine Snapshot.fieldsNormal_iff.2 fun y hy b hb => ?_
      obtain ⟨f, hf, hname, rfl⟩ := exists_of_layoutOf?_eq_some hb
      obtain ⟨hf, -⟩ := mem_present_snapshot.1 hf
      by_cases hadded : f.added ≤ v
      · refine ih y hy (Snapshot.fieldsNormal_iff.1 hfields y hy _ ?_)
        exact hname ▸ layoutOf?_snapshot hnames (mem_present_snapshot.2 ⟨hf, hadded⟩)
      · -- The field was not on the wire before, so it holds its default.
        have hdefault := homitted f (mem_omitted_snapshot.2 ⟨hf, UInt32.not_le.1 hadded⟩)
        have hfound : FieldMap.find? fields f.name = some y.2 :=
          (FieldMap.Sorted.find?_eq_some_iff hsorted).2 (hname ▸ hy)
        rw [← Option.some.inj (hdefault.symm.trans hfound)]
        exact isNormal_default _ _

/-- **What a later version admits**, between two records. -/
theorem admits_later_iff_of
    (hrecord : ∀ b name y, (root.snapshot v).IsNormal b y →
      (root.snapshot v).RecordConforms room name y →
        ((root.snapshot w).RecordConforms room name y ↔ root.Upgradable v w y))
    (hnormal : (root.snapshot v).IsNormal a x)
    (hx : a.Admits (root.snapshot v) ((root.snapshot v).RecordConforms room) x) :
    a.Admits (root.snapshot w) ((root.snapshot w).RecordConforms room) x ↔
      root.Upgradable v w x := by
  -- By induction on the layout; only records can lack a default.
  induction a generalizing x with
  | primitive q =>
    obtain ⟨y, rfl, hkind⟩ := hx
    exact iff_of_true ⟨y, rfl, hkind⟩ (upgradable_of_recordTypes_eq_nil Value.recordTypes_box)
  | text =>
    obtain ⟨t, rfl, hsize⟩ := hx
    exact iff_of_true ⟨t, rfl, hsize⟩ (upgradable_of_recordTypes_eq_nil rfl)
  | nullable inner ih =>
    by_cases hnull : x.isNull = true
    · exact iff_of_true (.inl hnull)
        (upgradable_of_recordTypes_eq_nil (Value.recordTypes_of_isNull hnull))
    · simp only [Admits, hnull, Bool.false_eq_true, false_or] at hx ⊢
      exact ih ((Program.isNormal_nullable_of_not_isNull hnull).1 hnormal) hx
  | list member ih =>
    obtain ⟨vs, rfl, hlength, hcount, hmembers⟩ := hx
    rw [Snapshot.IsNormal, Snapshot.membersNormal_iff] at hnormal
    rw [upgradable_list_iff]
    have hiff := forall₂_congr fun y hy => ih (hnormal y hy) (hmembers y hy)
    constructor
    · rintro ⟨_, hlist, -, -, hlater⟩
      cases hlist
      exact hiff.1 hlater
    · intro hupgradable
      -- Members that are without bytes now were so before, and the bound has held there.
      refine ⟨vs, rfl, hlength, ?_, hiff.2 hupgradable⟩
      rintro ⟨name, hname, hweightless⟩
      exact hcount ⟨name, hname, weightless_earlier hle hweightless⟩
  | record name fields => exact hrecord _ name x hnormal hx
  | reference name => exact hrecord _ name x hnormal hx
  | subtypes group members =>
    obtain ⟨m, hm, htype, hx⟩ := hx
    have hiff := hrecord _ m.type x hnormal hx
    constructor
    · rintro ⟨m', -, htype', hlater⟩
      have hsame : m.type = m'.type := Option.some.inj (htype.symm.trans htype')
      exact hiff.1 (hsame ▸ hlater)
    · intro hupgradable
      exact ⟨m, hm, htype, hiff.2 hupgradable⟩

/-- **What a later version admits of a record**, by induction on the records that may be nested. The
fields that were on the wire show what they have shown before, and the others hold their defaults.
-/
theorem recordConforms_later_iff (hnames : ∀ name, ((root.fieldsOf name).map (·.name)).Nodup)
    (hnormal : (root.snapshot v).IsNormal a x)
    (hx : (root.snapshot v).RecordConforms room name x) :
    (root.snapshot w).RecordConforms room name x ↔ root.Upgradable v w x := by
  induction room generalizing a x name with
  | zero => exact hx.elim
  | succ room ih =>
    obtain ⟨fields, rfl, hdeclared, hx⟩ := hx
    rw [upgradable_record_iff_of_isNormal hnormal]
    obtain ⟨-, -, -, homitted, hfields⟩ := hnormal
    -- A field that was on the wire already holds what was admitted there,
    have hkept : ∀ f ∈ root.fieldsOf name, f.added ≤ v → ∀ y, fields.find? f.name = some y →
        (f.layout.Admits (root.snapshot w) ((root.snapshot w).RecordConforms room) y ↔
          root.Upgradable v w y) := by
      intro f hf hv y hy
      have hf := mem_present_snapshot.2 ⟨hf, hv⟩
      have hlayout := layoutOf?_snapshot hnames hf
      have hnormal := Snapshot.fieldsNormal_iff.1 hfields _ (FieldMap.mem_of_find?_eq_some hy) _
        hlayout
      obtain ⟨z, hz, hadmits⟩ := hx f hf
      cases hy.symm.trans hz
      exact admits_later_iff_of hle (fun b name y => ih) hnormal hadmits
    -- and any other one its default.
    have hdefault : ∀ f ∈ root.fieldsOf name, v < f.added →
        fields.find? f.name = some f.layout.default :=
      fun f hf hv => homitted f (mem_omitted_snapshot.2 ⟨hf, hv⟩)
    constructor
    · rintro ⟨_, hrecord, -, hlater⟩ f hf
      cases hrecord
      refine ⟨fun hv y hy => ?_, fun hv hw => ?_⟩
      · obtain ⟨z, hz, hadmits⟩ := hlater f (mem_present_snapshot.2 ⟨hf, UInt32.le_trans hv hle⟩)
        cases hy.symm.trans hz
        exact (hkept f hf hv y hy).1 hadmits
      · obtain ⟨z, hz, hadmits⟩ := hlater f (mem_present_snapshot.2 ⟨hf, hw⟩)
        rw [← Option.some.inj ((hdefault f hf hv).symm.trans hz)] at hadmits
        exact (admits_default_iff fun _ => Snapshot.not_recordConforms_null).1 hadmits
    · intro hupgradable
      refine ⟨fields, rfl, fun y hy => ?_, fun f hf => ?_⟩
      · exact declares_snapshot_iff.2 (declares_snapshot_iff.1 (hdeclared y hy))
      · obtain ⟨hf, hw⟩ := mem_present_snapshot.1 hf
        by_cases hv : f.added ≤ v
        · obtain ⟨y, hy, -⟩ := hx f (mem_present_snapshot.2 ⟨hf, hv⟩)
          exact ⟨y, hy, (hkept f hf hv y hy).2 ((hupgradable f hf).1 hv y hy)⟩
        · have hv := UInt32.not_le.1 hv
          exact ⟨_, hdefault f hf hv, (admits_default_iff fun _ =>
            Snapshot.not_recordConforms_null).2 ((hupgradable f hf).2 hv hw)⟩

/-- **What a later version admits** of a value that an earlier one admits in its normal form: all
that can be upgraded. -/
theorem admits_later_iff (hnames : ∀ name, ((root.fieldsOf name).map (·.name)).Nodup)
    (hnormal : (root.snapshot v).IsNormal a x)
    (hx : a.Admits (root.snapshot v) ((root.snapshot v).RecordConforms room) x) :
    a.Admits (root.snapshot w) ((root.snapshot w).RecordConforms room) x ↔
      root.Upgradable v w x :=
  admits_later_iff_of hle (fun _ _ _ => recordConforms_later_iff hle hnames) hnormal hx

end Later

end Layout

end SchemaWire

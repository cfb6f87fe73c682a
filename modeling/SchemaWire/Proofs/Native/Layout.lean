import SchemaWire.Proofs.Native.Conversion
import SchemaWire.Proofs.Program.Conformance
import SchemaWire.Proofs.Schema.Reachability
/-!
# How native data is laid out

What the layout of a native type and the values of its data have to do with each other, as far as it
can be said without going into records.

* `NativeTypes.Needs` — the record types that the data of a type needs, those of the fields of its
  records included.
* `NativeTypes.shape_toValue` — the layout decides which values are boxed: a bare scalar lies in a
  primitive, and there is nothing to box in any other layout. This is what an option goes by when it
  boxes what it holds, and what resolution goes by when it boxes the scalar in a nullable.
* `NativeTypes.Lays` — a snapshot lays out the fields of a record type as they have been declared.
* `NativeTypes.Weightless` — the types whose data takes no bytes, which are those that are laid out
  without bytes (`NativeTypes.weightlessMember_iff`).
-/

namespace SchemaWire

variable {Γ : NativeTypes} {t : NativeType Γ.count} {i : Fin Γ.count} {s : Schema}
  {tagEncoding : TagEncoding} {varLength : Bool} {σ : Snapshot} {a : Layout} {v : Value}

namespace NativeTypes

/-! ### Types and what they lead to -/

/-- A type that is serialized as a nullable is an option, maybe in a box. -/
theorem exists_content_of_typeExpr {u : TypeExpr} (h : Γ.typeExpr t = .nullable u) :
    ∃ content, u = Γ.typeExpr content ∧ content.record? = t.record? := by
  induction t with
  | boxed content ih => exact ih h
  | optional content =>
    cases h
    exact ⟨content, rfl, rfl⟩
  | scalar _ | text | list _ | record _ => cases h

/-- A type that is serialized as a list is a list, maybe in a box. -/
theorem exists_member_of_typeExpr {u : TypeExpr} (h : Γ.typeExpr t = .list u) :
    ∃ member, u = Γ.typeExpr member ∧ member.record? = t.record? := by
  induction t with
  | boxed content ih => exact ih h
  | list member =>
    cases h
    exact ⟨member, rfl, rfl⟩
  | scalar _ | text | optional _ | record _ => cases h

/-- A type that is serialized as a record is a record type, maybe in a box. -/
theorem exists_record_of_typeExpr {name : TypeName} (h : Γ.typeExpr t = .record name) :
    ∃ i, t.record? = some i ∧ (Γ.record i).name = name := by
  induction t with
  | boxed content ih => exact ih h
  | record i =>
    cases h
    exact ⟨i, rfl, rfl⟩
  | scalar _ | text | optional _ | list _ => cases h

theorem typeExpr_ne_subtypes (Γ : NativeTypes) (t : NativeType Γ.count) (group : GroupName) :
    Γ.typeExpr t ≠ .subtypes group := by
  induction t with
  | boxed content ih => exact ih
  | scalar _ | text | optional _ | list _ | record _ => nofun

/-- **The record types that the data of a type needs.** -/
inductive Needs (Γ : NativeTypes) : NativeType Γ.count → Fin Γ.count → Prop
  | self {t : NativeType Γ.count} {i : Fin Γ.count} (h : t.record? = some i) : Needs Γ t i
  | field {t : NativeType Γ.count} {i j : Fin Γ.count} (h : t.record? = some i)
      {f : NativeField Γ.count} (hf : f ∈ (Γ.record i).fields) (hj : Needs Γ f.type j) : Needs Γ t j

theorem Needs.of_record? {t' : NativeType Γ.count} (h : Γ.Needs t i) (ht : t.record? = t'.record?) :
    Γ.Needs t' i := by
  cases h with
  | self h => exact .self (ht.symm.trans h)
  | field h hf hj => exact .field (ht.symm.trans h) hf hj

/-! ### Boxes -/

/-- A value of a layout that is no primitive has nothing to box, and it is no null unless the layout
is nullable. -/
structure Unboxed (a : Layout) (v : Value) : Prop where
  boxed : v.boxed = v
  layout : ∀ q, a ≠ .primitive q
  isNull : a.isNullable = false → v.isNull = false

theorem exists_asNullable (a : Layout) : ∃ inner, a.asNullable = .nullable inner := by
  cases a <;> exact ⟨_, rfl⟩

/-- **A bare scalar lies in a primitive, and nothing else needs a box.** -/
theorem shape_toValue (h : s.Lays tagEncoding varLength (Γ.typeExpr t) a) (x : NativeData Γ t) :
    (∃ (q : Primitive) (y : Scalar), a = .primitive q ∧ q.wrapped = false ∧ y.kind = q.kind ∧
      x.toValue = .scalar y) ∨ Unboxed a x.toValue := by
  induction x generalizing a with
  | @scalar kind x =>
    cases h with
    | scalar => exact .inl ⟨_, ⟨kind, x⟩, rfl, rfl, rfl, rfl⟩
  | text s =>
    cases h with
    | text => exact .inr ⟨rfl, nofun, fun _ => rfl⟩
  | none =>
    cases h with
    | nullable h =>
      obtain ⟨inner, hinner⟩ := exists_asNullable _
      rw [hinner]
      -- The empty option is a null or an empty box, which has nothing to put in a box.
      exact .inr ⟨Γ.boxed_absent _, nofun, nofun⟩
  | some x ih =>
    cases h with
    | nullable h =>
      obtain ⟨inner, hinner⟩ := exists_asNullable _
      rw [hinner]
      -- What an option holds is in its box already.
      exact .inr ⟨Value.boxed_boxed _, nofun, nofun⟩
  | list xs ih =>
    cases h with
    | list h => exact .inr ⟨rfl, nofun, fun _ => rfl⟩
  | boxed x ih => exact ih h
  | record xs ih =>
    cases h with
    | record hname =>
      refine .inr ⟨rfl, ?_, fun _ => rfl⟩
      rintro q rfl
      cases hname

/-! ### Records -/

/-- A field of a layout is that of a native type. -/
def LaysField (Γ : NativeTypes) (s : Schema) (tagEncoding : TagEncoding) (g : NativeField Γ.count)
    (f : Field Layout) : Prop :=
  f.name = g.name ∧ ∃ varLength, s.Lays tagEncoding varLength (Γ.typeExpr g.type) f.layout

/-- **A snapshot lays out a record type**: it has all of its fields, in whatever order, and no
others. -/
structure Lays (Γ : NativeTypes) (σ : Snapshot) (s : Schema) (tagEncoding : TagEncoding)
    (i : Fin Γ.count) : Prop where
  laid : ∀ g ∈ (Γ.record i).fields, ∃ f ∈ σ.present (Γ.record i).name, Γ.LaysField s tagEncoding g f
  native : ∀ f ∈ σ.present (Γ.record i).name, ∃ g ∈ (Γ.record i).fields,
    Γ.LaysField s tagEncoding g f

/-! ### Types without bytes -/

/-- **Types without bytes**: records whose fields are such records, also in boxes. -/
inductive Weightless (Γ : NativeTypes) : NativeType Γ.count → Prop
  | boxed {content : NativeType Γ.count} (h : Weightless Γ content) : Weightless Γ (.boxed content)
  | record {i : Fin Γ.count} (h : ∀ f ∈ (Γ.record i).fields, Weightless Γ f.type) :
      Weightless Γ (.record i)

/-- A type without bytes is a record type without bytes. -/
theorem Weightless.exists_record (h : Γ.Weightless t) :
    ∃ i, t.record? = some i ∧ Γ.typeExpr t = .record (Γ.record i).name ∧
      ∀ f ∈ (Γ.record i).fields, Γ.Weightless f.type := by
  induction h with
  | boxed _ ih => exact ih
  | @record i h => exact ⟨i, rfl, rfl, h⟩

theorem weightless_of_typeExpr (h : Γ.typeExpr t = .record (Γ.record i).name)
    (hi : ∀ f ∈ (Γ.record i).fields, Γ.Weightless f.type) : Γ.Weightless t := by
  induction t with
  | boxed content ih => exact .boxed (ih h)
  | record j =>
    obtain rfl := Γ.eq_of_name_eq j i (TypeExpr.record.inj h)
    exact .record hi
  | scalar _ | text | optional _ | list _ => cases h

/-- A record without bytes is laid out without bytes, by induction on the type. -/
theorem Weightless.snapshot (h : Γ.Weightless t)
    (hrecords : ∀ i, Γ.Needs t i → Γ.Lays σ s tagEncoding i) :
    ∃ i, Γ.typeExpr t = .record (Γ.record i).name ∧ σ.Weightless (Γ.record i).name := by
  induction h with
  | boxed _ ih => exact ih fun i hi => hrecords i (hi.of_record? rfl)
  | @record i h ih =>
    have hlays := hrecords i (.self rfl)
    -- Each field is a record without bytes, and it is laid out as the native field says.
    have hfield : ∀ f ∈ σ.present (Γ.record i).name, ∃ j,
        f.layout.recordName? = some (Γ.record j).name ∧ σ.Weightless (Γ.record j).name := by
      intro f hf
      obtain ⟨g, hg, -, _, hlaid⟩ := hlays.native f hf
      obtain ⟨j, htype, hj⟩ := ih g hg fun k hk => hrecords k (.field rfl hg hk)
      rw [htype] at hlaid
      cases hlaid with
      | record hname => exact ⟨j, hname, hj⟩
    refine ⟨i, rfl, .mk (fun f hf => ?_) fun f hf inner hinner => ?_⟩
    · obtain ⟨j, hname, -⟩ := hfield f hf
      exact hname ▸ rfl
    · obtain ⟨j, hname, hj⟩ := hfield f hf
      cases hname.symm.trans hinner
      exact hj

/-- A record that is laid out without bytes is one, by induction on how that comes about. -/
theorem weightless_of_snapshot {name : TypeName} (h : σ.Weightless name)
    (ht : Γ.typeExpr t = .record name)
    (hrecords : ∀ i, Γ.Needs t i → Γ.Lays σ s tagEncoding i) : Γ.Weightless t := by
  -- By induction on the weightlessness of the name, which is that of the record declared under it.
  induction h generalizing t with
  | @mk name hrecord _ ih =>
    obtain ⟨i, hi, rfl⟩ := exists_record_of_typeExpr ht
    have hlays := hrecords i (.self hi)
    refine weightless_of_typeExpr ht fun g hg => ?_
    obtain ⟨f, hf, -, _, hlaid⟩ := hlays.laid g hg
    obtain ⟨inner, hinner⟩ := Option.isSome_iff_exists.1 (hrecord f hf)
    exact ih f hf inner hinner (hlaid.of_record hinner) fun j hj => hrecords j (.field hi hg hj)

/-- **Layouts without bytes are those of types without bytes.** -/
theorem weightlessMember_iff (h : s.Lays tagEncoding varLength (Γ.typeExpr t) a)
    (hrecords : ∀ i, Γ.Needs t i → Γ.Lays σ s tagEncoding i) :
    σ.WeightlessMember a ↔ Γ.Weightless t := by
  constructor
  · rintro ⟨name, hname, hweightless⟩
    exact weightless_of_snapshot hweightless (h.of_record hname) hrecords
  · intro hweightless
    -- Without bytes means a record, which is spelled out under its own name.
    obtain ⟨i, htype, hi⟩ := hweightless.snapshot hrecords
    rw [htype] at h
    cases h with
    | record hname => exact ⟨_, hname, hi⟩

end NativeTypes

end SchemaWire

import SchemaWire.Proofs.Layout.Renaming
import SchemaWire.Proofs.Schema.Registration
import SchemaWire.Proofs.Schema.Resolution
/-!
# Schemas under new names

A schema is renamed declaration by declaration. No check of a declaration looks at a name but to
compare it with another one, so the renamed declarations are accepted one after another as the old
ones were (`Schema.Declared.rename`), and they are found under their new names
(`Schema.known?_rename`).

The resolver compares the records that it has spelled out by name, and tells names in errors.
`Resolving.Carries` says of two of its computations that one gives the renaming of what the other
one gives, wherever that one succeeds; every step of the resolver is of this kind, so a type that
resolves does so under new names, and its layout is the renamed one (`Schema.layout_rename`).
-/

namespace SchemaWire

/-! ### Declarations -/

/-- A field of a record, under new names. -/
def FieldDecl.rename (ρ : Renaming) (type : TypeName) (f : FieldDecl) : FieldDecl :=
  { f with name := ρ.field type f.name, type := f.type.rename ρ }

/-- A record type under new names. -/
def RecordDecl.rename (ρ : Renaming) (d : RecordDecl) : RecordDecl :=
  ⟨ρ.record d.name, d.fields.map (FieldDecl.rename ρ d.name)⟩

/-- A member of a group under new names. -/
def MemberDecl.rename (ρ : Renaming) (m : MemberDecl) : MemberDecl :=
  { m with type := ρ.record m.type }

/-- A group under new names. -/
def GroupDecl.rename (ρ : Renaming) (d : GroupDecl) : GroupDecl :=
  ⟨ρ.group d.name, d.members.map (MemberDecl.rename ρ)⟩

/-- A declaration under new names. -/
def Declaration.rename (ρ : Renaming) : Declaration → Declaration
  | .record d => .record (d.rename ρ)
  | .group d => .group (d.rename ρ)

/-- What a declaration is kept under, once it has been renamed. -/
def DeclName.rename (ρ : Renaming) : DeclName → DeclName
  | .record name => .record (ρ.record name)
  | .group name => .group (ρ.group name)

/-- A schema under new names. -/
def Schema.rename (ρ : Renaming) (s : Schema) : Schema where
  records := s.records.map (RecordDecl.rename ρ)
  groups := s.groups.map (GroupDecl.rename ρ)

variable {ρ : Renaming}

namespace RecordDecl

/-- **The wire order is the same as before**: keys are no names. -/
theorem wireFields_rename (d : RecordDecl) :
    (d.rename ρ).wireFields = d.wireFields.map (FieldDecl.rename ρ d.name) :=
  (List.map_mergeSort (f := FieldDecl.rename ρ d.name) (r := FieldDecl.keyLe)
    fun _ _ _ _ => rfl).symm

theorem Consistent.rename {d : RecordDecl} (h : d.Consistent) : (d.rename ρ).Consistent := by
  have hnames : (d.rename ρ).fields.map (·.name) =
      (d.fields.map (·.name)).map (ρ.field d.name) := by
    rw [RecordDecl.rename, List.map_map, List.map_map]
    rfl
  have horders : (d.rename ρ).fields.filterMap (·.order) = d.fields.filterMap (·.order) := by
    rw [RecordDecl.rename, List.filterMap_map]
    rfl
  have hkeys : (d.rename ρ).KeysConsistent :=
    ⟨h.keys.all_or_none.imp List.forall_mem_map.2 List.forall_mem_map.2, horders ▸ h.keys.nodup⟩
  refine ⟨hnames ▸ h.names.map (ρ.field_injective d.name), hkeys, ?_, ?_⟩
  · -- Along the wire order no field is older than one before it, neither before nor after.
    rw [← pairwise_wireFields_iff hkeys, wireFields_rename, List.pairwise_map]
    exact (pairwise_wireFields_iff h.keys _).2 h.versions
  · refine List.forall_mem_map.2 fun f hf hlength => ?_
    change ∃ kind, (f.type.rename ρ).leafKind? = some kind ∧ _
    rw [TypeExpr.leafKind?_rename]
    exact h.lengths f hf hlength

end RecordDecl

namespace GroupDecl

theorem tags_rename (d : GroupDecl) :
    (d.rename ρ).tags = d.tags.map fun x => (x.1, ρ.record x.2) := by
  unfold tags
  rw [GroupDecl.rename, List.zipIdx_map, List.map_map, List.map_map]
  rfl

theorem map_fst_tags_rename (d : GroupDecl) :
    (d.rename ρ).tags.map (·.1) = d.tags.map (·.1) := by
  rw [tags_rename, List.map_map]
  rfl

theorem taggedMembers_rename {d : GroupDecl} {tagged : List (UInt32 × TypeName)}
    (h : d.taggedMembers = .ok tagged) :
    (d.rename ρ).taggedMembers = .ok (tagged.map fun x => (x.1, ρ.record x.2)) := by
  unfold taggedMembers at h ⊢
  rw [map_fst_tags_rename]
  split at h
  · cases h
  · cases h
    rw [tags_rename]

theorem Consistent.rename {d : GroupDecl} (h : d.Consistent) : (d.rename ρ).Consistent := by
  have htypes : (d.rename ρ).memberTypes = d.memberTypes.map ρ.record := by
    unfold memberTypes
    rw [GroupDecl.rename, List.map_map, List.map_map]
    rfl
  -- Distinct types stay distinct, and the tags are untouched.
  refine ⟨mt List.map_eq_nil_iff.1 h.nonempty, ?_, ?_⟩
  · rw [htypes]
    exact h.types.map ρ.record_injective
  · rw [map_fst_tags_rename]
    exact h.tags

end GroupDecl

theorem Declaration.Consistent.rename {c : Declaration} (h : c.Consistent) :
    (c.rename ρ).Consistent := by
  cases c with
  | record d => exact RecordDecl.Consistent.rename h
  | group d => exact GroupDecl.Consistent.rename h

theorem Declaration.name_rename (c : Declaration) : (c.rename ρ).name = c.name.rename ρ := by
  cases c <;> rfl

/-! ### Schemas that can arise -/

namespace Schema

variable {s s' : Schema} {c : Declaration} {tagEncoding : TagEncoding}

theorem record?_rename (s : Schema) (name : TypeName) :
    (s.rename ρ).record? (ρ.record name) = (s.record? name).map (RecordDecl.rename ρ) := by
  unfold record?
  rw [Schema.rename, List.find?_map]
  simp only [Function.comp_def, RecordDecl.rename, ρ.record_injective.eq_iff]

theorem group?_rename (s : Schema) (name : GroupName) :
    (s.rename ρ).group? (ρ.group name) = (s.group? name).map (GroupDecl.rename ρ) := by
  unfold group?
  rw [Schema.rename, List.find?_map]
  simp only [Function.comp_def, GroupDecl.rename, ρ.group_injective.eq_iff]

/-- **A declaration is found under its new name.** -/
theorem known?_rename (s : Schema) (name : DeclName) :
    (s.rename ρ).known? (name.rename ρ) = (s.known? name).map (Declaration.rename ρ) := by
  cases name with
  | record name =>
    rw [DeclName.rename, known?_record, known?_record, record?_rename, Option.map_map,
      Option.map_map]
    rfl
  | group name =>
    rw [DeclName.rename, known?_group, known?_group, group?_rename, Option.map_map,
      Option.map_map]
    rfl

theorem add_rename (s : Schema) (c : Declaration) :
    (s.add c).rename ρ = (s.rename ρ).add (c.rename ρ) := by
  cases c with
  | record d => simp only [add, Declaration.rename, Schema.rename, List.map_append, List.map_cons,
      List.map_nil]
  | group d => simp only [add, Declaration.rename, Schema.rename, List.map_append, List.map_cons,
      List.map_nil]

/-- **What is accepted is accepted under new names.** -/
theorem declare_rename (h : s.declare c = .ok s') :
    (s.rename ρ).declare (c.rename ρ) = .ok (s'.rename ρ) := by
  rw [declare_eq_ok_iff] at h ⊢
  rw [Declaration.name_rename, known?_rename]
  -- Repeated and new are told apart by the names, which correspond.
  obtain ⟨hconsistent, hstep⟩ := h
  refine ⟨hconsistent.rename, hstep.imp ?_ ?_⟩
  · rintro ⟨hknown, rfl⟩
    exact ⟨by rw [hknown, Option.map_some], rfl⟩
  · rintro ⟨hfree, rfl⟩
    exact ⟨by rw [hfree, Option.map_none], add_rename s c⟩

theorem Declared.rename (h : s.Declared) : (s.rename ρ).Declared := by
  induction h with
  | empty => exact .empty
  | @record s s' d _ hd ih => exact ih.record (declare_rename (c := .record d) hd)
  | @group s s' d _ hd ih => exact ih.group (declare_rename (c := .group d) hd)

end Schema

/-! ### The resolver -/

namespace Resolving

variable {α β γ δ : Type}

/-- **A computation carries another one over to new names**: wherever that one succeeds, it gives
the image under `g`, and the records that have been spelled out are the same under their new names.
-/
def Carries (ρ : Renaming) (g : α → β) (m' : Resolving β) (m : Resolving α) : Prop :=
  ∀ known x known', m known = .ok (x, known') →
    m' (known.map ρ.record) = .ok (g x, known'.map ρ.record)

theorem Carries.pure {g : α → β} {x : α} {y : β} (h : g x = y) :
    Carries ρ g (Pure.pure y) (Pure.pure x) := by
  intro known z known' hz
  cases hz
  rw [← h]
  rfl

theorem Carries.throw (e : SchemaError) {g : α → β} (m' : Resolving β) :
    Carries ρ g m' (MonadExcept.throw e) := by
  intro known x known' hx
  cases hx

theorem Carries.bind {m : Resolving α} {m' : Resolving β} {f : α → Resolving γ}
    {f' : β → Resolving δ} {g : α → β} {h : γ → δ} (hm : Carries ρ g m' m)
    (hf : ∀ x, Carries ρ h (f' (g x)) (f x)) : Carries ρ h (m' >>= f') (m >>= f) := by
  intro known y known' hy
  obtain ⟨x, known₁, hx, hy⟩ := run_bind_eq_ok_iff.1 hy
  exact run_bind_eq_ok_iff.2 ⟨g x, known₁.map ρ.record, hm known x known₁ hx,
    hf x known₁ y known' hy⟩

theorem carries_ofExcept {g : α → β} {e : Except SchemaError α} {e' : Except SchemaError β}
    (h : ∀ x, e = .ok x → e' = .ok (g x)) : Carries ρ g (ofExcept e') (ofExcept e) := by
  cases e with
  | ok x =>
    rw [h x rfl]
    exact Carries.pure rfl
  | error err => exact Carries.throw err _

theorem Carries.mapM {f : α → Resolving γ} {f' : β → Resolving δ} {g : α → β} {h : γ → δ}
    (hf : ∀ x, Carries ρ h (f' (g x)) (f x)) (xs : List α) :
    Carries ρ (List.map h) ((xs.map g).mapM f') (xs.mapM f) := by
  induction xs with
  | nil => exact Carries.pure rfl
  | cons x xs ih =>
    rw [List.map_cons, List.mapM_cons, List.mapM_cons]
    exact (hf x).bind fun y => ih.bind fun ys => Carries.pure rfl

end Resolving

theorem Layout.asNullable_rename (a : Layout) :
    a.asNullable.rename ρ = (a.rename ρ).asNullable := by
  cases a <;> rfl

namespace Schema

open Resolving
open Layout (renameField renameMember)

variable {s : Schema} {tagEncoding : TagEncoding}

section Types

variable {record record' : TypeName → String → Resolving Layout}
  (hrecord : ∀ name referrer referrer',
    (record' (ρ.record name) referrer').Carries ρ (Layout.rename ρ) (record name referrer))
include hrecord

theorem resolveGroup_rename (group : GroupName) (referrer referrer' : String) :
    ((s.rename ρ).resolveGroup tagEncoding record' (ρ.group group) referrer').Carries ρ
      (Layout.rename ρ) (s.resolveGroup tagEncoding record group referrer) := by
  unfold resolveGroup
  rw [group?_rename]
  -- The same group under its new name, if it is there.
  cases s.group? group with
  | none => exact Carries.throw _ _
  | some d =>
    refine (carries_ofExcept fun _ => GroupDecl.taggedMembers_rename).bind fun tagged => ?_
    have hmember : ∀ t : UInt32 × TypeName, Resolving.Carries ρ (renameMember ρ) (do
        if tagEncoding.maxTag < t.1 then throw (.tagOverflow (ρ.group group) t.1 tagEncoding)
        return Member.mk t.1 (ρ.record t.2)
          (← record' (ρ.record t.2) (TypeExpr.subtypes (ρ.group group)).describe)) (do
        if tagEncoding.maxTag < t.1 then throw (.tagOverflow group t.1 tagEncoding)
        return Member.mk t.1 t.2 (← record t.2 (TypeExpr.subtypes group).describe)) := by
      intro t
      by_cases hmax : tagEncoding.maxTag < t.1
      · -- Nothing is claimed of a computation that fails.
        intro known m known' hm
        rw [if_pos hmax] at hm
        cases hm
      · rw [if_neg hmax, if_neg hmax]
        exact (hrecord t.2 _ _).bind fun a => Carries.pure rfl
    refine (Carries.mapM hmember tagged).bind fun members => Carries.pure ?_
    exact Layout.rename_subtypes group members

theorem resolveType_rename (varLength : Bool) (referrer referrer' : String) (t : TypeExpr) :
    ((s.rename ρ).resolveType tagEncoding record' varLength referrer' (t.rename ρ)).Carries ρ
      (Layout.rename ρ) (s.resolveType tagEncoding record varLength referrer t) := by
  induction t with
  | scalar kind | wrapped kind | text => exact Carries.pure rfl
  | nullable t ih => exact ih.bind fun a => Carries.pure a.asNullable_rename
  | list t ih => exact ih.bind fun a => Carries.pure rfl
  | record name => exact hrecord name referrer referrer'
  | subtypes group => exact resolveGroup_rename hrecord group referrer referrer'

end Types

/-- **Records are resolved alike**, by induction on how many can still be spelled out inside one
another. -/
theorem resolveRecord_rename (ρ : Renaming) (s : Schema) (tagEncoding : TagEncoding) (fuel : Nat)
    (name : TypeName) (referrer referrer' : String) :
    ((s.rename ρ).resolveRecord tagEncoding fuel (ρ.record name) referrer').Carries ρ
      (Layout.rename ρ) (s.resolveRecord tagEncoding fuel name referrer) := by
  -- By induction on the fuel. A record that is known is known under its new name, and any other is
  -- opened on both sides.
  induction fuel using Nat.strongRecOn generalizing name referrer referrer' with
  | ind fuel ih =>
    intro known a known' ha
    have hmem : ρ.record name ∈ known.map ρ.record ↔ name ∈ known :=
      List.mem_map_of_injective ρ.record_injective
    by_cases hknown : name ∈ known
    · rw [resolveRecord_of_mem hknown] at ha
      cases ha
      -- The declaration is the renamed one, so its fields are resolved in the same order.
      exact resolveRecord_of_mem (hmem.2 hknown) _ _
    · obtain ⟨d, rest, fields, hd, rfl, rfl, hfields⟩ := (resolveRecord_eq_ok_iff hknown).1 ha
      refine (resolveRecord_eq_ok_iff (mt hmem.1 hknown)).2
        ⟨d.rename ρ, rest, fields.map (renameField ρ name), ?_, rfl, ?_, ?_⟩
      · rw [record?_rename, hd, Option.map_some]
      · exact Layout.rename_record name fields
      · obtain rfl : d.name = name := (record?_eq_some hd).2
        rw [RecordDecl.wireFields_rename]
        refine Carries.mapM (fun f => ?_) d.wireFields _ _ _ hfields
        refine (resolveType_rename (ih rest (Nat.lt_succ_self rest)) _ _ _ _).bind fun b => ?_
        exact Carries.pure rfl

/-- **A type that resolves does so under new names**, and its layout is the renamed one. -/
theorem layout_rename (ρ : Renaming) {root : TypeExpr} {a : Layout}
    (h : s.layout tagEncoding root = .ok a) :
    (s.rename ρ).layout tagEncoding (root.rename ρ) = .ok (a.rename ρ) := by
  obtain ⟨hdangling, known, ha⟩ := layout_eq_ok_iff.1 h
  refine layout_eq_ok_iff.2 ⟨by rw [Layout.dangling?_rename, hdangling, Option.map_none],
    known.map ρ.record, ?_⟩
  -- The number of declarations is the fuel, and renaming keeps it.
  have hlength : (s.rename ρ).records.length = s.records.length := List.length_map _
  rw [hlength]
  have hrecord := resolveRecord_rename ρ s tagEncoding s.records.length
  exact resolveType_rename hrecord false "root" "root" root [] a known ha

end Schema

end SchemaWire

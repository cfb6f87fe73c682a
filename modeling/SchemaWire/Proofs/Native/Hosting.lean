import SchemaWire.Proofs.Native.Layout
import SchemaWire.Proofs.Native.Registration
import SchemaWire.Proofs.Program.Family
import SchemaWire.Proofs.Schema.Outcome
/-!
# Schemas that host native types

A schema hosts native types if it leaves their names free or has them declared as they are
(`NativeTypes.HostedBy`). There every native type can be registered, and registration keeps it that
way (`NativeTypes.register_eq_ok`). After it, the schema has all declarations that the type needs
(`NativeTypes.ProvidedBy`), and then nothing else is missing (`NativeTypes.ProvidedBy.complete`):
there is a layout, and at the newest version it lays out every record type with all of its fields
(`NativeTypes.ProvidedBy.lays`).

A type that asks first is taken for granted once its name is known, so that it matters whether its
fields have been registered by then. They have not while it is open itself. The invariant of
registration therefore names the types that are open (`NativeTypes.HostedWhileOpen`), and everything
else follows from what one type does (`NativeTypes.register_record_eq_ok`), by induction on the cost
of its registration.
-/

namespace SchemaWire

variable {Γ : NativeTypes} {i j k : Fin Γ.count} {s s' : Schema} {t : NativeType Γ.count}
  {opened : Set (Fin Γ.count)} {fields : List (NativeField Γ.count)} {tagEncoding : TagEncoding}
  {u : TypeExpr} {a : Layout}

namespace NativeTypes

/-- A record type has been declared, as it is. -/
def DeclaredIn (Γ : NativeTypes) (s : Schema) (i : Fin Γ.count) : Prop :=
  s.record? (Γ.record i).name = some (Γ.decl i)

/-- A schema has the declarations that the data of a type needs. -/
def ProvidedBy (Γ : NativeTypes) (s : Schema) (t : NativeType Γ.count) : Prop :=
  ∀ i, Γ.Needs t i → Γ.DeclaredIn s i

/-- The names of native record types are free, or they are taken by these types. -/
def NamesFit (Γ : NativeTypes) (s : Schema) : Prop :=
  ∀ i, s.record? (Γ.record i).name = none ∨ Γ.DeclaredIn s i

/-- **A schema for native data**: a record type is not declared, or it is declared as it is, and a
type that asks first is declared together with everything that it needs. -/
structure HostedBy (Γ : NativeTypes) (s : Schema) : Prop where
  names : Γ.NamesFit s
  whole : ∀ i, (Γ.record i).asksFirst = true → Γ.DeclaredIn s i → Γ.ProvidedBy s (.record i)

theorem HostedBy.empty (Γ : NativeTypes) : Γ.HostedBy {} where
  names _ := .inl rfl
  whole _ _ h := nomatch h

/-! ### The invariant of registration -/

/-- **A record type has been registered**: it is declared, and if it does not ask first, the record
types of its fields have been registered after it. -/
inductive Registered (Γ : NativeTypes) (s : Schema) : Fin Γ.count → Prop
  | mk {i : Fin Γ.count} (self : Γ.DeclaredIn s i)
      (fields : (Γ.record i).asksFirst = false → ∀ f ∈ (Γ.record i).fields, ∀ j,
        f.type.record? = some j → Registered Γ s j) : Registered Γ s i

/-- The record types of some fields have been registered. -/
def FieldsRegistered (Γ : NativeTypes) (s : Schema) (fields : List (NativeField Γ.count)) : Prop :=
  ∀ f ∈ fields, ∀ j, f.type.record? = some j → Γ.Registered s j

/-- **While some types are open**, those that ask first may be without their fields, but no others
that have been declared. -/
structure HostedWhileOpen (Γ : NativeTypes) (opened : Set (Fin Γ.count)) (s : Schema) : Prop where
  names : Γ.NamesFit s
  whole : ∀ i, (Γ.record i).asksFirst = true → i ∉ opened → Γ.DeclaredIn s i →
    Γ.FieldsRegistered s (Γ.record i).fields

theorem Registered.declaredIn (h : Γ.Registered s i) : Γ.DeclaredIn s i := by
  cases h with
  | mk self _ => exact self

/-- What has been declared stays declared, as no name is ever forgotten. -/
theorem DeclaredIn.of_knows (hi : Γ.DeclaredIn s i) (hknows : s'.Knows s) (hnames : Γ.NamesFit s') :
    Γ.DeclaredIn s' i := by
  refine (hnames i).resolve_left fun hnone => ?_
  have hknown := hknows _ (Option.isSome_of_eq_some hi)
  rw [hnone] at hknown
  cases hknown

/-- What has been registered stays registered. -/
theorem Registered.of_knows (hi : Γ.Registered s i) (hknows : s'.Knows s)
    (hnames : Γ.NamesFit s') : Γ.Registered s' i := by
  induction hi with
  | mk self _ ih => exact .mk (self.of_knows hknows hnames) ih

/-- **What a registered type needs is there.** A type that asks first has its fields because it is
not open, and any other type because they have been registered after it. -/
theorem HostedWhileOpen.providedBy (h : Γ.HostedWhileOpen ∅ s)
    (ht : ∀ i, t.record? = some i → Γ.Registered s i) : Γ.ProvidedBy s t := by
  intro k hk
  -- Along the mentions: what a registered type needs is registered with it, and then so is what
  -- that needs.
  induction hk with
  | self hi => exact (ht _ hi).declaredIn
  | @field t i k hi f hf _ ih =>
    refine ih fun j hj => ?_
    cases ht i hi with
    | mk self fields =>
      cases hasks : (Γ.record i).asksFirst with
      | true => exact h.whole i hasks (Set.notMem_empty i) self f hf j hj
      | false => exact fields hasks f hf j hj

theorem ProvidedBy.field (h : Γ.ProvidedBy s t) (hi : t.record? = some i)
    {f : NativeField Γ.count} (hf : f ∈ (Γ.record i).fields) : Γ.ProvidedBy s f.type :=
  fun k hk => h k (.field hi hf hk)

theorem ProvidedBy.of_record? (h : Γ.ProvidedBy s t) {t' : NativeType Γ.count}
    (ht : t'.record? = t.record?) : Γ.ProvidedBy s t' :=
  fun k hk => h k (hk.of_record? ht)

/-- **Where everything is declared that a type needs, it has been registered.** By induction on its
number, since types that do not ask contain smaller ones. -/
theorem ProvidedBy.registered (h : Γ.ProvidedBy s (.record i)) : Γ.Registered s i := by
  -- By induction on the order of the records: a field refers to a record that asks first or to a
  -- smaller one.
  induction i using WellFoundedLT.induction with
  | _ i ih =>
    refine .mk (h i (.self rfl)) fun hasks f hf j hj => ?_
    have hneeds : Γ.ProvidedBy s (.record j) := (h.field rfl hf).of_record? hj.symm
    obtain hasks' | hlt := Γ.guarded i hasks f hf j hj
    · exact .mk (hneeds j (.self rfl)) fun hplain => absurd (hplain.symm.trans hasks') Bool.false_ne_true
    · exact ih j hlt hneeds

theorem HostedBy.whileOpen (h : Γ.HostedBy s) : Γ.HostedWhileOpen ∅ s where
  names := h.names
  whole i hasks _ hi _ hf j hj := by
    have hneeds : Γ.ProvidedBy s (.record j) :=
      ((h.whole i hasks hi).field rfl hf).of_record? hj.symm
    exact hneeds.registered

theorem HostedWhileOpen.hostedBy (h : Γ.HostedWhileOpen ∅ s) : Γ.HostedBy s where
  names := h.names
  whole i hasks hi := by
    refine h.providedBy fun j hj => ?_
    cases hj
    exact .mk hi fun hplain => absurd (hplain.symm.trans hasks) Bool.false_ne_true

/-! ### One record type -/

/-- A record type can be declared where its name is free or its own. -/
theorem exists_declareRecord (hnames : Γ.NamesFit s) (hcheck : (Γ.decl i).check = .ok ()) :
    ∃ s₁, s.declareRecord (Γ.decl i) = .ok s₁ := by
  obtain hnone | hself := hnames i
  · exact ⟨_, Schema.declareRecord_of_none hcheck hnone⟩
  · refine ⟨s, ?_⟩
    unfold Schema.declareRecord
    rw [hcheck, show s.record? (Γ.decl i).name = some (Γ.decl i) from hself]
    exact if_pos rfl

/-- Where a type has just been declared, it is the only one that has come to be without its
fields. -/
theorem HostedWhileOpen.declare (h : Γ.HostedWhileOpen opened s)
    (hdeclare : s.declareRecord (Γ.decl i) = .ok s') :
    Γ.DeclaredIn s' i ∧ Γ.HostedWhileOpen (insert i opened) s' := by
  obtain ⟨hself, hothers⟩ := Schema.record?_of_declareRecord hdeclare
  have hnames : Γ.NamesFit s' := by
    intro j
    by_cases hname : (Γ.record j).name = (Γ.record i).name
    · obtain rfl := Γ.eq_of_name_eq j i hname
      exact .inr hself
    · rw [DeclaredIn, hothers _ hname]
      exact h.names j
  refine ⟨hself, hnames, fun j hasks hj hdeclared f hf k hk => ?_⟩
  obtain ⟨hne, hclosed⟩ := not_or.1 (mt Set.mem_insert_iff.2 hj)
  -- Another type has been declared before, with its fields, and they are registered still.
  have hbefore : Γ.DeclaredIn s j := by
    rw [DeclaredIn, ← hothers _ fun hname => hne (Γ.eq_of_name_eq j i hname)]
    exact hdeclared
  have hregistered := h.whole j hasks hclosed hbefore f hf k hk
  exact hregistered.of_knows (Schema.knows_of_declareRecord hdeclare) hnames

/-- Once its fields have been registered, a type is no longer open. -/
theorem HostedWhileOpen.close (h : Γ.HostedWhileOpen (insert i opened) s)
    (hfields : Γ.FieldsRegistered s (Γ.record i).fields) : Γ.HostedWhileOpen opened s where
  names := h.names
  whole j hasks hj hdeclared := by
    by_cases hself : j = i
    · rw [hself]
      exact hfields
    · exact h.whole j hasks (mt Set.mem_insert_iff.1 (not_or.2 ⟨hself, hj⟩)) hdeclared

/-- What registration comes to: it succeeds, and the schema is as good as before. -/
def Succeeds (Γ : NativeTypes) (opened : Set (Fin Γ.count)) (s : Schema)
    (r : Except SchemaError Unit × Schema) : Prop :=
  r.1 = .ok () ∧ r.2.Knows s ∧ r.2.Declared ∧ Γ.HostedWhileOpen opened r.2

/-- The fields of a record type are registered one after another, and each registration leaves the
earlier ones as they are. -/
theorem registerAll_succeeds
    (hrecord : ∀ f ∈ fields, ∀ j, f.type.record? = some j → ∀ s' : Schema, s'.Knows s →
      s'.Declared → Γ.HostedWhileOpen opened s' →
        Γ.Succeeds opened s' (Γ.register (.record j) s') ∧
          Γ.Registered (Γ.register (.record j) s').2 j)
    (hs : s.Declared) (hhosts : Γ.HostedWhileOpen opened s) :
    Γ.Succeeds opened s (Γ.registerAll fields s) ∧
      Γ.FieldsRegistered (Γ.registerAll fields s).2 fields := by
  induction fields generalizing s with
  | nil => exact ⟨⟨rfl, fun _ h => h, hs, hhosts⟩, List.forall_mem_nil _⟩
  | cons f fields ih =>
    obtain ⟨hf, hrest⟩ := List.forall_mem_cons.1 hrecord
    -- The first field is registered, if there is a record type in it at all.
    obtain ⟨s₁, hfirst, hknows₁, hs₁, hhosts₁, hregistered⟩ :
        ∃ s₁, Γ.registerType (fun j => Γ.register (.record j)) f.type s = (.ok (), s₁) ∧
          s₁.Knows s ∧ s₁.Declared ∧ Γ.HostedWhileOpen opened s₁ ∧
          ∀ j, f.type.record? = some j → Γ.Registered s₁ j := by
      unfold registerType
      cases hj : f.type.record? with
      | none => exact ⟨s, rfl, fun _ h => h, hs, hhosts, nofun⟩
      | some j =>
        obtain ⟨⟨hok, hknows, hdeclared, hopen⟩, hregistered⟩ :=
          hf j hj s (fun _ h => h) hs hhosts
        refine ⟨_, Prod.ext hok rfl, hknows, hdeclared, hopen, ?_⟩
        rintro _ ⟨⟩
        exact hregistered
    -- The other fields come after it, in a schema that knows as much.
    obtain ⟨⟨hok, hknows, hdeclared, hopen⟩, hfields⟩ :=
      ih (fun g hg j hj s' hs' => hrest g hg j hj s' (hs'.trans hknows₁)) hs₁ hhosts₁
    have hall : Γ.registerAll (f :: fields) s = Γ.registerAll fields s₁ := by
      rw [registerAll, registerFields, hfirst]
    rw [hall]
    refine ⟨⟨hok, hknows.trans hknows₁, hdeclared, hopen⟩, List.forall_mem_cons.2 ⟨?_, hfields⟩⟩
    exact fun j hj => (hregistered j hj).of_knows hknows hopen.names

/-- **Registration of a record type** succeeds, and nothing that is not open is left without its
fields. By induction on what it costs: the fields cost less. -/
theorem register_record_succeeds (haccepted : ∀ i, (Γ.decl i).check = .ok ()) (hs : s.Declared)
    (hhosts : Γ.HostedWhileOpen opened s) :
    Γ.Succeeds opened s (Γ.register (.record i) s) ∧
      Γ.Registered (Γ.register (.record i) s).2 i := by
  -- By induction on what is left to register; a record stays open until its fields are.
  induction hcost : Γ.cost s i using Nat.strong_induction_on generalizing i s opened with
  | _ cost ih =>
    subst hcost
    rw [register_record]
    by_cases hpasses : Γ.Passes s i
    · -- The type is taken for granted.
      rw [if_pos hpasses]
      obtain ⟨hasks, hknown⟩ := Bool.and_eq_true_iff.1 hpasses
      refine ⟨⟨rfl, fun _ h => h, hs, hhosts⟩, .mk ?_ fun hplain => ?_⟩
      · refine (hhosts.names i).resolve_left fun hnone => ?_
        rw [hnone] at hknown
        cases hknown
      · exact absurd (hplain.symm.trans hasks) Bool.false_ne_true
    · rw [if_neg hpasses]
      obtain ⟨s₁, hdeclare⟩ := exists_declareRecord hhosts.names (haccepted i)
      -- Declared, but open: its fields come next.
      obtain ⟨hself, hopen⟩ := hhosts.declare hdeclare
      rw [hdeclare]
      obtain ⟨⟨hok, hknows, hdeclared, hopen'⟩, hfields⟩ :=
        registerAll_succeeds (fun f hf j hj s' hs' hdeclared' hhosts' =>
          ih _ (cost_lt hpasses hdeclare hs' hf hj) hdeclared' hhosts' rfl)
          (hs.record hdeclare) hopen
      have hall := hknows.trans (Schema.knows_of_declareRecord hdeclare)
      refine ⟨⟨hok, hall, hdeclared, hopen'.close hfields⟩, .mk ?_ fun _ => hfields⟩
      exact hself.of_knows hknows hopen'.names

/-- **Registration** succeeds, leaves all declarations behind that the type needs, and a schema that
hosts native types as before. -/
theorem register_eq_ok (haccepted : ∀ i, (Γ.decl i).check = .ok ()) (hs : s.Declared)
    (hhosts : Γ.HostedBy s) (t : NativeType Γ.count) :
    ∃ s', Γ.register t s = (.ok (), s') ∧ s'.Declared ∧ Γ.HostedBy s' ∧ Γ.ProvidedBy s' t := by
  rw [register_eq]
  -- Only the record that the type refers to is registered, whatever it is wrapped in.
  cases hi : t.record? with
  | none =>
    refine ⟨s, rfl, hs, hhosts, fun k hk => ?_⟩
    cases hk with
    | self h | field h => cases hi.symm.trans h
  | some i =>
    obtain ⟨⟨hok, -, hdeclared, hopen⟩, hregistered⟩ :=
      register_record_succeeds (i := i) haccepted hs hhosts.whileOpen
    refine ⟨_, Prod.ext hok rfl, hdeclared, hopen.hostedBy, hopen.providedBy fun j hj => ?_⟩
    cases hi.symm.trans hj
    exact hregistered

/-! ### What is there after registration -/

/-- A native type leads to native types, and to none that has not been registered with it. -/
theorem ProvidedBy.of_reaches (h : Γ.ProvidedBy s t) (hu : s.Reaches (Γ.typeExpr t) u) :
    ∃ t', u = Γ.typeExpr t' ∧ Γ.ProvidedBy s t' := by
  generalize hroot : Γ.typeExpr t = root at hu
  induction hu with
  | root => exact ⟨t, hroot.symm, h⟩
  | nullable _ ih =>
    obtain ⟨t', ht', hprovided⟩ := ih
    obtain ⟨content, rfl, hrecord⟩ := exists_content_of_typeExpr ht'.symm
    exact ⟨content, rfl, hprovided.of_record? hrecord⟩
  | list _ ih =>
    obtain ⟨t', ht', hprovided⟩ := ih
    obtain ⟨member, rfl, hrecord⟩ := exists_member_of_typeExpr ht'.symm
    exact ⟨member, rfl, hprovided.of_record? hrecord⟩
  | field _ hd hf ih =>
    obtain ⟨t', ht', hprovided⟩ := ih
    obtain ⟨i, hi, rfl⟩ := exists_record_of_typeExpr ht'.symm
    -- What is declared under the name is the native declaration, with native fields.
    cases hd.symm.trans (hprovided i (.self hi))
    obtain ⟨g, hg, rfl⟩ := List.mem_map.1 hf
    exact ⟨g.type, rfl, hprovided.field hi hg⟩
  | member _ _ _ ih =>
    obtain ⟨t', ht', -⟩ := ih
    exact absurd ht'.symm (Γ.typeExpr_ne_subtypes t' _)

/-- **Nothing is missing** for a native type that has been registered. -/
theorem ProvidedBy.complete (h : Γ.ProvidedBy s t) (tagEncoding : TagEncoding) :
    s.Complete tagEncoding (Γ.typeExpr t) where
  record name hname := by
    obtain ⟨t', ht', hprovided⟩ := h.of_reaches hname
    obtain ⟨i, hi, rfl⟩ := exists_record_of_typeExpr ht'.symm
    exact ⟨Γ.decl i, hprovided i (.self hi)⟩
  group group hgroup := by
    obtain ⟨t', ht', -⟩ := h.of_reaches hgroup
    exact absurd ht'.symm (Γ.typeExpr_ne_subtypes t' group)

/-- A type leads to the record type in it, through options and lists. -/
theorem reaches_of_record? {root : TypeExpr} (ht : s.Reaches root (Γ.typeExpr t))
    (hi : t.record? = some i) : s.Reaches root (.record (Γ.record i).name) := by
  induction t with
  | scalar _ | text => cases hi
  | optional content ih => exact ih ht.nullable hi
  | list member ih => exact ih ht.list hi
  | boxed content ih => exact ih ht hi
  | record j =>
    cases hi
    exact ht

/-- A native type leads to all record types that it needs. -/
theorem ProvidedBy.reaches {root : TypeExpr} (h : Γ.ProvidedBy s t)
    (ht : s.Reaches root (Γ.typeExpr t)) (hi : Γ.Needs t i) :
    s.Reaches root (.record (Γ.record i).name) := by
  induction hi with
  | self hi => exact reaches_of_record? ht hi
  | @field t i j hi f hf _ ih =>
    have hrecord := reaches_of_record? ht hi
    have hdecl : Γ.fieldDecl f ∈ (Γ.decl i).fields := List.mem_map_of_mem hf
    exact ih (h.field hi hf) (hrecord.field (h i (.self hi)) hdecl)

/-- **All fields of all records** are laid out at the newest version. -/
theorem ProvidedBy.lays (h : Γ.ProvidedBy s t) (ha : s.Resolves tagEncoding (Γ.typeExpr t) a)
    (hi : Γ.Needs t i) : Γ.Lays (a.snapshot a.newest) s tagEncoding i := by
  -- The root leads to the record, so it is spelled out somewhere, as it has been declared.
  obtain ⟨fields, hspelled⟩ := ha.spelled_iff.2 (h.reaches .root hi)
  obtain ⟨d, hd, hfields⟩ := ha.spells _ _ (Layout.record_fieldsOf_mem_nodes hspelled).1
  cases hd.symm.trans (h i hi)
  have hpresent : (a.snapshot a.newest).present (Γ.record i).name =
      a.fieldsOf (Γ.record i).name := by
    refine List.filter_eq_self.2 fun f hf => decide_eq_true ?_
    exact Layout.le_newest (Layout.added_mem_versions hf)
  constructor
  · intro g hg
    have hdecl : Γ.fieldDecl g ∈ (Γ.decl i).wireFields :=
      RecordDecl.mem_wireFields.2 (List.mem_map_of_mem hg)
    obtain ⟨f, hf, hname, -, hlaid⟩ := exists_mem_of_forall₂_left hfields hdecl
    exact ⟨f, hpresent ▸ hf, hname, _, hlaid⟩
  · intro f hf
    rw [hpresent] at hf
    obtain ⟨d, hd, hname, -, hlaid⟩ := exists_mem_of_forall₂_right hfields hf
    obtain ⟨g, hg, rfl⟩ := List.mem_map.1 (RecordDecl.mem_wireFields.1 hd)
    exact ⟨g, hg, hname, _, hlaid⟩

end NativeTypes

end SchemaWire

import SchemaWire.Proofs.Layout.Nodes
import SchemaWire.Proofs.Lists
import SchemaWire.Proofs.Schema.Declaration
import SchemaWire.Schema.Resolution
/-!
# What resolution gives

`Schema.Lays` says, without going through the resolver, how a type is laid out: scalars as
primitives, nullables collapsed and boxing what they hold, records by name and groups by their
members. `Schema.Resolves` says it of a whole layout: of every record that is spelled out in it, the
fields are those of its declaration in wire order, each laid out as its type says.

* `Schema.resolves_of_layout` — a layout that resolution gives is of this kind.
* `Schema.layout_eq_of_tagEncoding` — the tag encoding decides whether there is a layout, but not
  which one.
* `Schema.Lays.proper`, `Schema.Resolves.proper` — such layouts have the shape that both directions
  of a codec rely on, provided that the schema has been declared.
-/

namespace SchemaWire

/-! ### Computations of the resolver -/

namespace Resolving

variable {α β : Type}

/-- Whatever a computation gives satisfies `P`. -/
def Ensures (m : Resolving α) (P : α → Prop) : Prop :=
  ∀ known x known', m known = .ok (x, known') → P x

/-- Two computations do not give different results, nor leave different records known. -/
def Agrees (m m' : Resolving α) : Prop :=
  ∀ known r r', m known = .ok r → m' known = .ok r' → r = r'

theorem run_bind_eq_ok_iff {m : Resolving α} {f : α → Resolving β} {known : List TypeName}
    {r : β × List TypeName} :
    (m >>= f) known = .ok r ↔ ∃ x known₁, m known = .ok (x, known₁) ∧ f x known₁ = .ok r := by
  change (m known >>= fun x => f x.1 x.2) = .ok r ↔ _
  rw [bind_eq_ok_iff]
  exact Prod.exists

theorem Ensures.pure {P : α → Prop} {x : α} (h : P x) : Ensures (Pure.pure x) P := by
  intro known y known' hy
  cases hy
  exact h

theorem Ensures.throw {P : α → Prop} (e : SchemaError) : Ensures (throw e) P := by
  intro known y known' hy
  cases hy

theorem Ensures.bind {m : Resolving α} {f : α → Resolving β} {P : α → Prop} {Q : β → Prop}
    (hm : Ensures m P) (hf : ∀ x, P x → Ensures (f x) Q) : Ensures (m >>= f) Q := by
  intro known y known' hy
  obtain ⟨x, known₁, hx, hy⟩ := run_bind_eq_ok_iff.1 hy
  exact hf x (hm known x known₁ hx) known₁ y known' hy

theorem ensures_ofExcept (e : Except SchemaError α) :
    Ensures (ofExcept e) fun x => e = .ok x := by
  cases e with
  | ok x => exact Ensures.pure rfl
  | error e => exact Ensures.throw e

theorem Ensures.mapM {f : α → Resolving β} {P : α → β → Prop} {xs : List α}
    (h : ∀ x ∈ xs, Ensures (f x) (P x)) : Ensures (xs.mapM f) (List.Forall₂ P xs) := by
  -- One after another, and the names opened on the way are passed on.
  induction xs with
  | nil => exact Ensures.pure .nil
  | cons x xs ih =>
    obtain ⟨hx, hxs⟩ := List.forall_mem_cons.1 h
    rw [List.mapM_cons]
    refine hx.bind fun y hy => (ih hxs).bind fun ys hys => ?_
    exact Ensures.pure (.cons hy hys)

theorem Agrees.refl (m : Resolving α) : Agrees m m := by
  intro known r r' h h'
  exact Except.ok.inj (h.symm.trans h')

theorem Agrees.bind {m m' : Resolving α} {f f' : α → Resolving β} (hm : Agrees m m')
    (hf : ∀ x, Agrees (f x) (f' x)) : Agrees (m >>= f) (m' >>= f') := by
  intro known r r' h h'
  obtain ⟨x, known₁, hx, hr⟩ := run_bind_eq_ok_iff.1 h
  obtain ⟨x', known₁', hx', hr'⟩ := run_bind_eq_ok_iff.1 h'
  cases hm known _ _ hx hx'
  exact hf x known₁ r r' hr hr'

theorem Agrees.throw_left (e : SchemaError) (m : Resolving α) : Agrees (throw e) m := by
  intro known r r' h
  cases h

theorem Agrees.throw_right (e : SchemaError) (m : Resolving α) : Agrees m (throw e) := by
  intro known r r' _ h'
  cases h'

theorem Agrees.mapM {f f' : α → Resolving β} (h : ∀ x, Agrees (f x) (f' x)) (xs : List α) :
    Agrees (xs.mapM f) (xs.mapM f') := by
  induction xs with
  | nil => exact Agrees.refl _
  | cons x xs ih =>
    rw [List.mapM_cons, List.mapM_cons]
    exact (h x).bind fun y => ih.bind fun ys => Agrees.refl _

end Resolving

/-! ### How types are laid out -/

namespace Schema

variable {s : Schema} {tagEncoding : TagEncoding}

/-- A member of a group is laid out as the record of its type, with a tag that can be carried. -/
def LaysMember (tagEncoding : TagEncoding) (x : UInt32 × TypeName) (m : Member Layout) : Prop :=
  m.tag = x.1 ∧ m.type = x.2 ∧ m.tag ≤ tagEncoding.maxTag ∧ m.layout.recordName? = some m.type

/-- **How a type is laid out**, with integers of a variable length or not. Records are laid out by
name: what is inside them is said elsewhere. -/
inductive Lays (s : Schema) (tagEncoding : TagEncoding) (varLength : Bool) :
    TypeExpr → Layout → Prop
  | scalar (kind : ScalarKind) :
      Lays s tagEncoding varLength (.scalar kind)
        (.primitive ((Primitive.ofKind kind).withVarLength varLength))
  | wrapped (kind : ScalarKind) :
      Lays s tagEncoding varLength (.wrapped kind)
        (.primitive ((Primitive.ofKind kind).withVarLength varLength).ensureWrapped)
  | text : Lays s tagEncoding varLength .text .text
  /-- A nullable boxes a scalar and swallows a nullable. -/
  | nullable {t : TypeExpr} {a : Layout} (h : Lays s tagEncoding varLength t a) :
      Lays s tagEncoding varLength (.nullable t) a.asNullable
  /-- A list hands the length of integers down to its members. -/
  | list {t : TypeExpr} {a : Layout} (h : Lays s tagEncoding varLength t a) :
      Lays s tagEncoding varLength (.list t) (.list a)
  /-- A record is spelled out or referred to. -/
  | record {name : TypeName} {a : Layout} (h : a.recordName? = some name) :
      Lays s tagEncoding varLength (.record name) a
  /-- A group has its members in the order of declaration, each with its tag. -/
  | subtypes {group : GroupName} {d : GroupDecl} {tagged : List (UInt32 × TypeName)}
      {members : List (Member Layout)} (hd : s.group? group = some d)
      (htagged : d.taggedMembers = .ok tagged)
      (h : List.Forall₂ (LaysMember tagEncoding) tagged members) :
      Lays s tagEncoding varLength (.subtypes group) (.subtypes group members)

/-- A field of a layout is laid out as it has been declared. -/
def LaysField (s : Schema) (tagEncoding : TagEncoding) (d : FieldDecl) (f : Field Layout) : Prop :=
  f.name = d.name ∧ f.added = d.added ∧ s.Lays tagEncoding d.varLength d.type f.layout

/-- Every record that is spelled out in a layout has the fields that have been declared. -/
def Spells (s : Schema) (tagEncoding : TagEncoding) (a : Layout) : Prop :=
  ∀ name fields, Layout.record name fields ∈ a.nodes → ∃ d, s.record? name = some d ∧
    List.Forall₂ (s.LaysField tagEncoding) d.wireFields fields

/-- **The layouts of a type**, as resolution gives them. -/
structure Resolves (s : Schema) (tagEncoding : TagEncoding) (root : TypeExpr) (a : Layout) :
    Prop where
  lays : s.Lays tagEncoding false root a
  /-- Records are spelled out as they have been declared. -/
  spells : s.Spells tagEncoding a
  /-- Every record that is referred to is spelled out. -/
  dangling : a.dangling? = none

/-! ### The resolver gives such layouts -/

/-- A layout spells its records out as they have been declared if its parts do and, should it be a
record, it does so itself. -/
theorem spells_of_parts {a : Layout} (hparts : ∀ c ∈ a.parts, s.Spells tagEncoding c)
    (hself : ∀ name fields, a = .record name fields → ∃ d, s.record? name = some d ∧
      List.Forall₂ (s.LaysField tagEncoding) d.wireFields fields) : s.Spells tagEncoding a := by
  intro name fields hnode
  rcases Layout.mem_nodes_iff.1 hnode with hself' | ⟨c, hc, hnode⟩
  · exact hself name fields hself'.symm
  · exact hparts c hc name fields hnode

theorem Spells.of_part {a c : Layout} (h : s.Spells tagEncoding a) (hc : c ∈ a.parts) :
    s.Spells tagEncoding c :=
  fun name fields hnode => h name fields (Layout.mem_nodes_of_part hc hnode)

theorem spells_asNullable {a : Layout} (h : s.Spells tagEncoding a) :
    s.Spells tagEncoding a.asNullable := by
  cases a with
  | nullable inner => exact h
  -- The scalar inside is boxed, so it is another layout than before, but no record either.
  | primitive q =>
    refine spells_of_parts (List.forall_mem_singleton.2 ?_) nofun
    exact spells_of_parts (List.forall_mem_nil _) nofun
  | text | list _ | record _ _ | reference _ | subtypes _ _ =>
    exact spells_of_parts (List.forall_mem_singleton.2 h) nofun

/-- What is asked of the computation for a record. -/
def RecordResolves (s : Schema) (tagEncoding : TagEncoding)
    (record : TypeName → String → Resolving Layout) : Prop :=
  ∀ name referrer, (record name referrer).Ensures fun a =>
    a.recordName? = some name ∧ s.Spells tagEncoding a

theorem ensures_resolveGroup {record : TypeName → String → Resolving Layout}
    (h : s.RecordResolves tagEncoding record) (varLength : Bool) (group : GroupName)
    (referrer : String) :
    (s.resolveGroup tagEncoding record group referrer).Ensures fun a =>
      s.Lays tagEncoding varLength (.subtypes group) a ∧ s.Spells tagEncoding a := by
  unfold resolveGroup
  cases hd : s.group? group with
  | none => exact Resolving.Ensures.throw _
  | some d =>
    refine (Resolving.ensures_ofExcept _).bind fun tagged htagged => ?_
    have hmember : ∀ t ∈ tagged, Resolving.Ensures (do
        if tagEncoding.maxTag < t.1 then throw (.tagOverflow group t.1 tagEncoding)
        return Member.mk t.1 t.2 (← record t.2 (TypeExpr.subtypes group).describe))
        fun m => LaysMember tagEncoding t m ∧ s.Spells tagEncoding m.layout := by
      -- A tag beyond the encoding ends the resolution, so the members that are returned have tags
      -- that fit.
      intro t _
      by_cases hmax : tagEncoding.maxTag < t.1
      · rw [if_pos hmax]
        exact (Resolving.Ensures.throw _).bind fun _ => False.elim
      · rw [if_neg hmax]
        refine (h t.2 _).bind fun a ha => Resolving.Ensures.pure ?_
        exact ⟨⟨rfl, rfl, UInt32.not_lt.1 hmax, ha.1⟩, ha.2⟩
    refine (Resolving.Ensures.mapM hmember).bind fun members hmembers => ?_
    refine Resolving.Ensures.pure ⟨.subtypes hd htagged (hmembers.imp fun _ _ hm => hm.1), ?_⟩
    refine spells_of_parts (List.forall_mem_map.2 fun m hm => ?_) nofun
    obtain ⟨t, -, -, hspells⟩ := exists_mem_of_forall₂_right hmembers hm
    exact hspells

theorem ensures_resolveType {record : TypeName → String → Resolving Layout}
    (h : s.RecordResolves tagEncoding record) (varLength : Bool) (referrer : String)
    (t : TypeExpr) :
    (s.resolveType tagEncoding record varLength referrer t).Ensures fun a =>
      s.Lays tagEncoding varLength t a ∧ s.Spells tagEncoding a := by
  -- A layout without parts spells nothing out.
  have hleaf {a : Layout} (ha : a.parts = []) (hrecord : a.recordName? = none) :
      s.Spells tagEncoding a := by
    refine spells_of_parts (by rw [ha]; exact List.forall_mem_nil _) ?_
    rintro name fields rfl
    cases hrecord
  induction t with
  | scalar kind => exact Resolving.Ensures.pure ⟨.scalar kind, hleaf rfl rfl⟩
  | wrapped kind => exact Resolving.Ensures.pure ⟨.wrapped kind, hleaf rfl rfl⟩
  | text => exact Resolving.Ensures.pure ⟨.text, hleaf rfl rfl⟩
  | record name => exact fun known a known' ha => (h name referrer known a known' ha).imp .record id
  | subtypes group => exact ensures_resolveGroup h varLength group referrer
  | nullable t ih =>
    refine ih.bind fun a ha => Resolving.Ensures.pure ?_
    exact ⟨.nullable ha.1, spells_asNullable ha.2⟩
  | list t ih =>
    refine ih.bind fun a ha => Resolving.Ensures.pure ⟨.list ha.1, ?_⟩
    exact spells_of_parts (List.forall_mem_singleton.2 ha.2) nofun

/-- A record that is known is referred to. -/
theorem resolveRecord_of_mem {known : List TypeName} {name : TypeName} (h : name ∈ known)
    (fuel : Nat) (referrer : String) :
    s.resolveRecord tagEncoding fuel name referrer known = .ok (.reference name, known) := by
  unfold resolveRecord
  change (if name ∈ known then _ else _ : Resolving Layout) known = _
  rw [if_pos h]
  rfl

/-- A record that is not known is spelled out, if it is declared and there is fuel. -/
theorem resolveRecord_eq_ok_iff {known known' : List TypeName} {name : TypeName} {a : Layout}
    (h : name ∉ known) {fuel : Nat} {referrer : String} :
    s.resolveRecord tagEncoding fuel name referrer known = .ok (a, known') ↔
    ∃ d rest fields, s.record? name = some d ∧ fuel = rest + 1 ∧ a = .record name fields ∧
      d.wireFields.mapM (fun f => do
        let a ← s.resolveType tagEncoding (s.resolveRecord tagEncoding rest) f.varLength
          (name ++ "." ++ f.name) f.type
        return Field.mk f.name f.added a : FieldDecl → Resolving (Field Layout)) (name :: known) =
        .ok (fields, known') := by
  constructor
  -- The name has not been opened, so its declaration is looked up and its fields are resolved.
  · intro ha
    unfold resolveRecord at ha
    obtain ⟨_, _, hget, ha⟩ := Resolving.run_bind_eq_ok_iff.1 ha
    cases hget
    rw [if_neg h] at ha
    cases hd : s.record? name with
    | none =>
      simp only [hd] at ha
      cases ha
    | some d =>
      cases fuel with
      | zero =>
        simp only [hd] at ha
        cases ha
      | succ rest =>
        simp only [hd] at ha
        obtain ⟨⟨⟩, _, hknown, ha⟩ := Resolving.run_bind_eq_ok_iff.1 ha
        cases hknown
        obtain ⟨fields, _, hfields, ha⟩ := Resolving.run_bind_eq_ok_iff.1 ha
        cases ha
        exact ⟨d, rest, fields, rfl, rfl, rfl, hfields⟩
  · rintro ⟨d, rest, fields, hd, rfl, rfl, hfields⟩
    unfold resolveRecord
    refine Resolving.run_bind_eq_ok_iff.2 ⟨known, known, rfl, ?_⟩
    rw [if_neg h]
    simp only [hd]
    refine Resolving.run_bind_eq_ok_iff.2 ⟨(), name :: known, rfl, ?_⟩
    exact Resolving.run_bind_eq_ok_iff.2 ⟨fields, known', hfields, rfl⟩

/-- **The records of the resolver**, by induction on how many can still be spelled out inside one
another. -/
theorem recordResolves_resolveRecord (s : Schema) (tagEncoding : TagEncoding) (fuel : Nat) :
    s.RecordResolves tagEncoding (s.resolveRecord tagEncoding fuel) := by
  -- By strong induction on the fuel, which falls by one for the fields of a record.
  induction fuel using Nat.strongRecOn with
  | ind fuel ih =>
    intro name referrer known a known' ha
    -- Of a record that is known only the name is left; any other is laid out field by field.
    by_cases hknown : name ∈ known
    · rw [resolveRecord_of_mem hknown] at ha
      cases ha
      exact ⟨rfl, spells_of_parts (List.forall_mem_nil _) nofun⟩
    · obtain ⟨d, rest, fields, hd, rfl, rfl, hfields⟩ := (resolveRecord_eq_ok_iff hknown).1 ha
      have hfield : ∀ f ∈ d.wireFields, Resolving.Ensures (do
          let a ← s.resolveType tagEncoding (s.resolveRecord tagEncoding rest) f.varLength
            (name ++ "." ++ f.name) f.type
          return Field.mk f.name f.added a)
          fun g => s.LaysField tagEncoding f g ∧ s.Spells tagEncoding g.layout := by
        intro f _
        refine (ensures_resolveType (ih rest (Nat.lt_succ_self rest)) _ _ _).bind fun b hb => ?_
        exact Resolving.Ensures.pure ⟨⟨rfl, rfl, hb.1⟩, hb.2⟩
      have hall := Resolving.Ensures.mapM hfield _ _ _ hfields
      refine ⟨rfl, spells_of_parts (List.forall_mem_map.2 fun g hg => ?_) ?_⟩
      · obtain ⟨f, -, -, hspells⟩ := exists_mem_of_forall₂_right hall hg
        exact hspells
      · rintro n others ⟨⟩
        exact ⟨d, hd, hall.imp fun _ _ hf => hf.1⟩

/-- The layout of a type is what the resolver gives, if no reference in it dangles. -/
theorem layout_eq_ok_iff {root : TypeExpr} {a : Layout} :
    s.layout tagEncoding root = .ok a ↔ a.dangling? = none ∧
      ∃ known, s.resolveType tagEncoding (s.resolveRecord tagEncoding s.records.length) false
        "root" root [] = .ok (a, known) := by
  -- Two steps: the resolver, and the check that none of its references dangles.
  unfold layout checkReferences
  constructor
  · intro h
    obtain ⟨⟨b, known⟩, hb, h⟩ := bind_eq_ok_iff.1 h
    obtain ⟨⟨⟩, hcheck, h⟩ := bind_eq_ok_iff.1 h
    cases h
    refine ⟨?_, known, hb⟩
    cases hdangling : a.dangling? with
    | none => rfl
    | some name =>
      simp only [hdangling] at hcheck
      cases hcheck
  · rintro ⟨hdangling, known, ha⟩
    refine bind_eq_ok_iff.2 ⟨(a, known), ha, bind_eq_ok_iff.2 ⟨(), ?_, rfl⟩⟩
    simp only [hdangling]

/-- **A layout that resolution gives** lays out its type and spells out its records as they have
been declared. -/
theorem resolves_of_layout {root : TypeExpr} {a : Layout} (h : s.layout tagEncoding root = .ok a) :
    s.Resolves tagEncoding root a := by
  obtain ⟨hdangling, known, ha⟩ := layout_eq_ok_iff.1 h
  obtain ⟨hlays, hspells⟩ := ensures_resolveType
    (recordResolves_resolveRecord s tagEncoding s.records.length) _ _ _ _ _ _ ha
  exact ⟨hlays, hspells, hdangling⟩

/-! ### The tag encoding does not enter a layout -/

section TagEncoding

variable {te te' : TagEncoding}

theorem agrees_resolveType {record record' : TypeName → String → Resolving Layout}
    (h : ∀ name referrer, (record name referrer).Agrees (record' name referrer))
    (varLength : Bool) (referrer : String) (t : TypeExpr) :
    (s.resolveType te record varLength referrer t).Agrees
      (s.resolveType te' record' varLength referrer t) := by
  -- By induction on the type: tags are the only place where the encoding is looked at.
  induction t with
  | scalar kind => exact Resolving.Agrees.refl _
  | wrapped kind => exact Resolving.Agrees.refl _
  | text => exact Resolving.Agrees.refl _
  | record name => exact h name referrer
  | nullable t ih => exact ih.bind fun a => Resolving.Agrees.refl _
  | list t ih => exact ih.bind fun a => Resolving.Agrees.refl _
  | subtypes group =>
    change Resolving.Agrees (s.resolveGroup te record group referrer)
      (s.resolveGroup te' record' group referrer)
    unfold resolveGroup
    cases s.group? group with
    | none => exact Resolving.Agrees.refl _
    | some d =>
      refine (Resolving.Agrees.refl _).bind fun tagged => ?_
      refine (Resolving.Agrees.mapM (fun t => ?_) tagged).bind fun _ => Resolving.Agrees.refl _
      -- Where both encodings can carry the tag, they do the same.
      by_cases hmax : te.maxTag < t.1
      · simp only [if_pos hmax]
        exact Resolving.Agrees.throw_left _ _
      · by_cases hmax' : te'.maxTag < t.1
        · simp only [if_pos hmax']
          exact Resolving.Agrees.throw_right _ _
        · simp only [if_neg hmax, if_neg hmax']
          exact (h _ _).bind fun a => Resolving.Agrees.refl _

theorem agrees_resolveRecord (fuel : Nat) (name : TypeName) (referrer : String) :
    (s.resolveRecord te fuel name referrer).Agrees (s.resolveRecord te' fuel name referrer) := by
  induction fuel using Nat.strongRecOn generalizing name referrer with
  | ind fuel ih =>
    rintro known ⟨a, known₁⟩ ⟨a', known₁'⟩ ha ha'
    -- Both computations begin with the same records known, so they take the same branch.
    by_cases hknown : name ∈ known
    · rw [resolveRecord_of_mem hknown] at ha ha'
      exact Except.ok.inj (ha.symm.trans ha')
    · obtain ⟨d, rest, fields, hd, rfl, rfl, hfields⟩ := (resolveRecord_eq_ok_iff hknown).1 ha
      obtain ⟨d', rest', fields', hd', hrest, rfl, hfields'⟩ :=
        (resolveRecord_eq_ok_iff hknown).1 ha'
      cases hd.symm.trans hd'
      cases hrest
      have hsame : (fields, known₁) = (fields', known₁') := by
        refine Resolving.Agrees.mapM (fun f => ?_) d.wireFields _ _ _ hfields hfields'
        exact (agrees_resolveType (ih rest (Nat.lt_succ_self rest)) _ _ _).bind
          fun a => Resolving.Agrees.refl _
      cases hsame
      rfl

/-- **The tag encoding does not enter a layout**: where two of them give one, it is the same. -/
theorem layout_eq_of_tagEncoding {root : TypeExpr} {a b : Layout} (ha : s.layout te root = .ok a)
    (hb : s.layout te' root = .ok b) : a = b := by
  obtain ⟨-, known, ha⟩ := layout_eq_ok_iff.1 ha
  obtain ⟨-, known', hb⟩ := layout_eq_ok_iff.1 hb
  cases agrees_resolveType (agrees_resolveRecord s.records.length) _ _ _ _ _ _ ha hb
  rfl

end TagEncoding

/-! ### The shape of such layouts -/

theorem Lays.proper (hs : s.Declared) {varLength : Bool} {t : TypeExpr} {a : Layout}
    (h : s.Lays tagEncoding varLength t a) : a.Proper tagEncoding := by
  induction h with
  | scalar _ | wrapped _ | text => trivial
  | @nullable t a _ ih =>
    -- The three shapes that a nullable can take: swallowed, boxed, or put around.
    cases a with
    | nullable inner => exact ih
    | primitive q => exact ⟨rfl, fun q' e => by cases e; rfl, trivial⟩
    | text | list _ | record _ _ | reference _ | subtypes _ _ => exact ⟨rfl, nofun, ih⟩
  | list _ ih => exact ih
  | @record name a h => cases a <;> trivial
  | @subtypes group d tagged members hd htagged hmembers =>
    obtain ⟨rfl, hnodup⟩ := GroupDecl.taggedMembers_eq_ok htagged
    have hcheck := hs.checked.2 d (group?_eq_some hd).1
    -- The members are those of the declaration, whose types and tags are distinct.
    have htags : members.map (·.tag) = d.tags.map (·.1) :=
      map_eq_map_of_forall₂ (hmembers.imp fun _ _ hm => hm.1)
    have htypes : members.map (·.type) = d.tags.map (·.2) :=
      map_eq_map_of_forall₂ (hmembers.imp fun _ _ hm => hm.2.1)
    refine ⟨htags ▸ hnodup, ?_, fun m hm => ?_⟩
    · rw [htypes, GroupDecl.map_snd_tags]
      exact GroupDecl.nodup_of_check hcheck
    · obtain ⟨t, -, -, -, hmax, hname⟩ := exists_mem_of_forall₂_right hmembers hm
      exact ⟨hmax, hname⟩

/-- The fields that are found under a name are declared ones, and in the order of declaration. -/
theorem Resolves.exists_record {root : TypeExpr} {a : Layout} (h : s.Resolves tagEncoding root a)
    {name : TypeName} (hname : a.fieldsOf name ≠ []) : ∃ d, s.record? name = some d ∧
      List.Forall₂ (s.LaysField tagEncoding) d.wireFields (a.fieldsOf name) :=
  h.spells name _ (Layout.record_mem_nodes hname rfl)

/-- **The program of such a layout has the shape that both directions of a codec rely on.** -/
theorem Resolves.proper (hs : s.Declared) {root : TypeExpr} {a : Layout}
    (h : s.Resolves tagEncoding root a) (version : Version) (format : WireFormat) :
    (Program.ofLayout a version format tagEncoding).Proper where
  root := h.lays.proper hs
  field name f hf := by
    obtain ⟨d, -, hfields⟩ := h.exists_record (List.ne_nil_of_mem hf)
    obtain ⟨g, -, -, -, hlays⟩ := exists_mem_of_forall₂_right hfields hf
    exact hlays.proper hs
  names name := by
    change ((a.fieldsOf name).map (·.name)).Nodup
    -- A record without fields has no names; any other is made from a declaration that was checked.
    by_cases hname : a.fieldsOf name = []
    · rw [hname]
      exact List.nodup_nil
    · obtain ⟨d, hd, hfields⟩ := h.exists_record hname
      rw [map_eq_map_of_forall₂ (hfields.imp fun _ _ hf => hf.1)]
      exact RecordDecl.nodup_wireFields (hs.checked.1 d (record?_eq_some hd).1)

end Schema

end SchemaWire

import SchemaWire.Proofs.Schema.Preorder
import SchemaWire.Proofs.Schema.Reachability
/-!
# When a type can be resolved

Whether a type can be resolved, and what else is reported, is decided by the types that it leads to.

* `Schema.Complete` — everything that the root leads to is declared, with tags that can be carried.
* `Schema.Fault` — an error names a type that is missing, together with the place where it is
  mentioned (`Schema.Mentions`), or a tag that is too large.

The resolver follows names through the schema and has no other bound than the records that are not
yet spelled out (`Schema.unspelled`). `Resolving.Settles` compares two runs of it that have enough
fuel, each for its schema: they have one and the same outcome, which is a fault if it is an error.
So fuel never runs out, and the outcome is the same in two schemas that declare alike what the root
leads to (`Schema.AlikeFor`, `Schema.settles_resolveRecord`, `Schema.layout_eq_of_alikeFor`).
-/

namespace SchemaWire

/-! ### Runs that are settled -/

namespace Resolving

variable {α β : Type} {Room : List TypeName → Prop} {Fault : SchemaError → Prop}

/-- **Two computations settle** where there is room: their outcome is the same, they leave room, and
the error, if there is one, is a fault. -/
def Settles (Room : List TypeName → Prop) (Fault : SchemaError → Prop) (m m' : Resolving α) :
    Prop :=
  ∀ known, Room known → m' known = m known ∧
    (∀ x known', m known = .ok (x, known') → Room known') ∧ ∀ e, m known = .error e → Fault e

theorem Settles.pure (x : α) : Settles Room Fault (Pure.pure x) (Pure.pure x) := by
  refine fun known hroom => ⟨rfl, fun y known' hy => ?_, nofun⟩
  cases hy
  exact hroom

theorem Settles.throw {e : SchemaError} (h : Fault e) :
    Settles (α := α) Room Fault (throw e) (throw e) := by
  refine fun known _ => ⟨rfl, nofun, fun e' he => ?_⟩
  cases he
  exact h

theorem Settles.bind {m m' : Resolving α} {f f' : α → Resolving β} (hm : Settles Room Fault m m')
    (hf : ∀ x, Settles Room Fault (f x) (f' x)) : Settles Room Fault (m >>= f) (m' >>= f') := by
  intro known hroom
  obtain ⟨hsame, hkeep, hfault⟩ := hm known hroom
  have hrun (m : Resolving α) (f : α → Resolving β) :
      (m >>= f) known = (m known >>= fun r => f r.1 r.2) := rfl
  rw [hrun, hrun, hsame]
  -- Both computations give the same answer first, so they go on from the same names or fail alike.
  cases h : m known with
  | error e =>
    refine ⟨rfl, nofun, fun e' he => ?_⟩
    cases he
    exact hfault e h
  | ok r => exact hf r.1 r.2 (hkeep r.1 r.2 h)

theorem Settles.mapM {f f' : α → Resolving β} {xs xs' : List α}
    (h : List.Forall₂ (fun x x' => Settles Room Fault (f x) (f' x')) xs xs') :
    Settles Room Fault (xs.mapM f) (xs'.mapM f') := by
  induction h with
  | nil => exact Settles.pure []
  | cons hx _ ih =>
    rw [List.mapM_cons, List.mapM_cons]
    exact hx.bind fun y => ih.bind fun ys => Settles.pure _

end Resolving

/-- A record type has the same fields as another one, in wire order. -/
def RecordDecl.Alike (d d' : RecordDecl) : Prop :=
  List.Forall₂ FieldDecl.Matches d.wireFields d'.wireFields

/-- A group has the same members as another one, with the same tags. -/
def GroupDecl.Alike (d d' : GroupDecl) : Prop := d'.taggedMembers = d.taggedMembers

theorem RecordDecl.Alike.refl (d : RecordDecl) : d.Alike d :=
  List.forall₂_same.2 fun f _ => FieldDecl.Matches.refl f

theorem GroupDecl.Alike.refl (d : GroupDecl) : d.Alike d := rfl

namespace Schema

variable {s s' : Schema} {tagEncoding : TagEncoding} {root t : TypeExpr} {referrer : String}
  {a : Layout}

/-! ### What can be wrong -/

/-- **Where a type is mentioned** on the way from a root: at the root, in a field of a record, or in
a group. A place is named as it is in messages. -/
inductive Mentions (s : Schema) (root : TypeExpr) : (referrer : String) → TypeExpr → Prop
  | root : Mentions s root "root" root
  /-- What is inside nullables and lists stands at the same place. -/
  | nullable {referrer : String} {t : TypeExpr} (h : Mentions s root referrer (.nullable t)) :
      Mentions s root referrer t
  | list {referrer : String} {t : TypeExpr} (h : Mentions s root referrer (.list t)) :
      Mentions s root referrer t
  | field {name : TypeName} {d : RecordDecl} {f : FieldDecl} (h : s.Reaches root (.record name))
      (hd : s.record? name = some d) (hf : f ∈ d.fields) :
      Mentions s root (name ++ "." ++ f.name) f.type
  | member {group : GroupName} {d : GroupDecl} {m : MemberDecl}
      (h : s.Reaches root (.subtypes group)) (hd : s.group? group = some d) (hm : m ∈ d.members) :
      Mentions s root ("subtypes of " ++ group) (.record m.type)

/-- **What can be wrong with a root type.** -/
inductive Fault (s : Schema) (tagEncoding : TagEncoding) (root : TypeExpr) : SchemaError → Prop
  /-- A record is mentioned and not declared. -/
  | record {referrer : String} {name : TypeName} (h : s.Mentions root referrer (.record name))
      (hd : s.record? name = none) :
      Fault s tagEncoding root (.unresolvable ("record " ++ name) referrer)
  /-- A group is mentioned and not declared. -/
  | group {referrer : String} {group : GroupName} (h : s.Mentions root referrer (.subtypes group))
      (hd : s.group? group = none) :
      Fault s tagEncoding root (.unresolvable ("subtypes of " ++ group) referrer)
  /-- A group has a tag that cannot be carried. -/
  | tag {group : GroupName} {d : GroupDecl} {x : UInt32 × TypeName}
      (h : s.Reaches root (.subtypes group)) (hd : s.group? group = some d) (hx : x ∈ d.tags)
      (hmax : tagEncoding.maxTag < x.1) :
      Fault s tagEncoding root (.tagOverflow group x.1 tagEncoding)

/-- **Nothing is missing**: all that a root leads to is declared, and its tags can be carried. -/
structure Complete (s : Schema) (tagEncoding : TagEncoding) (root : TypeExpr) : Prop where
  record : ∀ name, s.Reaches root (.record name) → ∃ d, s.record? name = some d
  group : ∀ group, s.Reaches root (.subtypes group) → ∃ d, s.group? group = some d ∧
    ∀ x ∈ d.tags, x.1 ≤ tagEncoding.maxTag

/-- Another schema declares the same of all that a root leads to. -/
structure SameFor (s s' : Schema) (root : TypeExpr) : Prop where
  record : ∀ name, s.Reaches root (.record name) → s'.record? name = s.record? name
  group : ∀ group, s.Reaches root (.subtypes group) → s'.group? group = s.group? group

/-- **Another schema declares alike** all that a root leads to, as far as the wire is concerned:
records with the same fields in wire order, whatever their keys, and groups with the same tags. -/
structure AlikeFor (s s' : Schema) (root : TypeExpr) : Prop where
  record : ∀ name, s.Reaches root (.record name) →
    Option.Rel RecordDecl.Alike (s.record? name) (s'.record? name)
  group : ∀ group, s.Reaches root (.subtypes group) →
    Option.Rel GroupDecl.Alike (s.group? group) (s'.group? group)

theorem SameFor.alikeFor (h : s.SameFor s' root) : s.AlikeFor s' root where
  record name hname := by
    rw [h.record name hname]
    exact optionRel_refl RecordDecl.Alike.refl _
  group group hgroup := by
    rw [h.group group hgroup]
    exact optionRel_refl GroupDecl.Alike.refl _

theorem AlikeFor.refl (s : Schema) (root : TypeExpr) : s.AlikeFor s root :=
  SameFor.alikeFor ⟨fun _ _ => rfl, fun _ _ => rfl⟩

theorem Mentions.reaches (h : s.Mentions root referrer t) : s.Reaches root t := by
  induction h with
  | root => exact .root
  | nullable _ ih => exact ih.nullable
  | list _ ih => exact ih.list
  | field h hd hf => exact h.field hd hf
  | member h hd hm => exact h.member hd hm

/-- A complete root has no fault. -/
theorem Complete.not_fault (h : s.Complete tagEncoding root) {e : SchemaError} :
    ¬s.Fault tagEncoding root e := by
  -- Each of the three faults is about a name that a complete schema has, with tags that fit.
  rintro (⟨hmention, hd⟩ | ⟨hmention, hd⟩ | ⟨hreach, hd, hx, hmax⟩)
  · obtain ⟨d, hd'⟩ := h.record _ hmention.reaches
    cases hd.symm.trans hd'
  · obtain ⟨d, hd', -⟩ := h.group _ hmention.reaches
    cases hd.symm.trans hd'
  · obtain ⟨d, hd', htags⟩ := h.group _ hreach
    cases hd.symm.trans hd'
    exact absurd (htags _ hx) (UInt32.not_le.2 hmax)

/-! ### The records that are left -/

/-- The records that are not yet spelled out. -/
def unspelled (s : Schema) (known : List TypeName) : List TypeName :=
  (s.records.map (·.name)).filter (· ∉ known)

theorem length_unspelled_nil (s : Schema) : (s.unspelled []).length = s.records.length := by
  simp [unspelled]

/-- Spelling out a record leaves fewer. -/
theorem length_unspelled_lt {name : TypeName} {d : RecordDecl} {known : List TypeName}
    (hd : s.record? name = some d) (h : name ∉ known) :
    (s.unspelled (name :: known)).length < (s.unspelled known).length := by
  obtain ⟨hmem, hname⟩ := record?_eq_some hd
  exact length_filter_not_mem_cons_lt (List.mem_map.2 ⟨d, hmem, hname⟩) h

/-- Enough fuel for each of two schemas. -/
def Room (s s' : Schema) (fuel fuel' : Nat) (known : List TypeName) : Prop :=
  (s.unspelled known).length ≤ fuel ∧ (s'.unspelled known).length ≤ fuel'

/-! ### Resolution settles -/

/-- A record that is not declared is reported. -/
theorem resolveRecord_of_none {name : TypeName} {known : List TypeName} (h : name ∉ known)
    (hd : s.record? name = none) (fuel : Nat) :
    s.resolveRecord tagEncoding fuel name referrer known =
      .error (.unresolvable ("record " ++ name) referrer) := by
  unfold resolveRecord
  change (if name ∈ known then _ else _ : Resolving Layout) known = _
  rw [if_neg h]
  simp only [hd]
  rfl

/-- Spelling out a record, where `record` resolves the records in its fields. -/
def spellOut (s : Schema) (tagEncoding : TagEncoding)
    (record : TypeName → String → Resolving Layout) (name : TypeName) (d : RecordDecl) :
    Resolving Layout := do
  let fields ← d.wireFields.mapM fun f => do
    let a ← s.resolveType tagEncoding record f.varLength (name ++ "." ++ f.name) f.type
    return Field.mk f.name f.added a
  return .record name fields

/-- A record that is declared is spelled out, and known while this is done. -/
theorem resolveRecord_of_some {name : TypeName} {d : RecordDecl} {known : List TypeName}
    (h : name ∉ known) (hd : s.record? name = some d) (fuel : Nat) :
    s.resolveRecord tagEncoding (fuel + 1) name referrer known =
      s.spellOut tagEncoding (s.resolveRecord tagEncoding fuel) name d (name :: known) := by
  unfold resolveRecord
  change (if name ∈ known then _ else _ : Resolving Layout) known = _
  rw [if_neg h]
  simp only [hd]
  rfl

section Settles

variable {Room : List TypeName → Prop} {record record' : TypeName → String → Resolving Layout}

theorem settles_resolveGroup (hs : s.Declared) (halike : s.AlikeFor s' root)
    (h : ∀ name referrer, s.Mentions root referrer (.record name) →
      Resolving.Settles Room (s.Fault tagEncoding root) (record name referrer)
        (record' name referrer))
    {group : GroupName} (hgroup : s.Mentions root referrer (.subtypes group)) :
    Resolving.Settles Room (s.Fault tagEncoding root)
      (s.resolveGroup tagEncoding record group referrer)
      (s'.resolveGroup tagEncoding record' group referrer) := by
  have hfound := halike.group group hgroup.reaches
  unfold resolveGroup
  cases hd : s.group? group with
  | none =>
    rw [hd] at hfound
    rw [optionRel_none_left hfound]
    exact Resolving.Settles.throw (.group hgroup hd)
  | some d =>
    -- The declarations of the group agree on the members, in the order of the tags.
    rw [hd] at hfound
    obtain ⟨d', hd', hsame⟩ := optionRel_some_left hfound
    have htags := GroupDecl.taggedMembers_of_check (hs.checked.2 d (group?_eq_some hd).1)
    simp only [hd', htags, hsame.trans htags]
    have hmember (x : UInt32 × TypeName) (hx : x ∈ d.tags) :
        Resolving.Settles Room (s.Fault tagEncoding root) (do
          if tagEncoding.maxTag < x.1 then throw (.tagOverflow group x.1 tagEncoding)
          return Member.mk x.1 x.2 (← record x.2 (TypeExpr.subtypes group).describe)) (do
          if tagEncoding.maxTag < x.1 then throw (.tagOverflow group x.1 tagEncoding)
          return Member.mk x.1 x.2 (← record' x.2 (TypeExpr.subtypes group).describe)) := by
      by_cases hmax : tagEncoding.maxTag < x.1
      · rw [if_pos hmax, if_pos hmax]
        exact Resolving.Settles.throw (.tag hgroup.reaches hd hx hmax)
      · rw [if_neg hmax, if_neg hmax]
        obtain ⟨m, hm, hmtype⟩ := d.exists_member hx
        have hmention := Mentions.member hgroup.reaches hd hm
        rw [hmtype] at hmention
        exact (h x.2 _ hmention).bind fun a => Resolving.Settles.pure _
    exact (Resolving.Settles.mapM (List.forall₂_same.2 hmember)).bind fun members =>
      Resolving.Settles.pure _

theorem settles_resolveType (hs : s.Declared) (halike : s.AlikeFor s' root)
    (h : ∀ name referrer, s.Mentions root referrer (.record name) →
      Resolving.Settles Room (s.Fault tagEncoding root) (record name referrer)
        (record' name referrer))
    (varLength : Bool) (ht : s.Mentions root referrer t) :
    Resolving.Settles Room (s.Fault tagEncoding root)
      (s.resolveType tagEncoding record varLength referrer t)
      (s'.resolveType tagEncoding record' varLength referrer t) := by
  induction t with
  | scalar kind | wrapped kind | text => exact Resolving.Settles.pure _
  | record name => exact h name referrer ht
  | subtypes group => exact settles_resolveGroup hs halike h ht
  | nullable t ih => exact (ih ht.nullable).bind fun a => Resolving.Settles.pure _
  | list t ih => exact (ih ht.list).bind fun a => Resolving.Settles.pure _

theorem settles_spellOut (hs : s.Declared) (halike : s.AlikeFor s' root)
    (h : ∀ name referrer, s.Mentions root referrer (.record name) →
      Resolving.Settles Room (s.Fault tagEncoding root) (record name referrer)
        (record' name referrer))
    {name : TypeName} {d d' : RecordDecl} (hname : s.Reaches root (.record name))
    (hd : s.record? name = some d) (hfields : d.Alike d') :
    Resolving.Settles Room (s.Fault tagEncoding root) (s.spellOut tagEncoding record name d)
      (s'.spellOut tagEncoding record' name d') := by
  refine (Resolving.Settles.mapM ?_).bind fun fields => Resolving.Settles.pure _
  refine (forall₂_and_mem hfields).imp ?_
  -- The fields are resolved alike, since resolution does not look at their keys.
  rintro f g ⟨hf, -, hgname, hgtype, hgadded, hglength⟩
  rw [hgname, hgtype, hgadded, hglength]
  have hmention := Mentions.field hname hd (RecordDecl.mem_wireFields.1 hf)
  exact (settles_resolveType hs halike h f.varLength hmention).bind fun a =>
    Resolving.Settles.pure _

end Settles

/-- **Two runs with enough fuel settle**, by induction on the fuel of the first one. Every record
that is spelled out takes one from the fuel and one from the records that are left. -/
theorem settles_resolveRecord (hs : s.Declared) (halike : s.AlikeFor s' root) (fuel fuel' : Nat)
    {name : TypeName} (hname : s.Mentions root referrer (.record name)) :
    Resolving.Settles (Room s s' fuel fuel') (s.Fault tagEncoding root)
      (s.resolveRecord tagEncoding fuel name referrer)
      (s'.resolveRecord tagEncoding fuel' name referrer) := by
  induction fuel using Nat.strongRecOn generalizing fuel' name referrer with
  | ind fuel ih =>
    rintro known ⟨hroom, hroom'⟩
    by_cases hknown : name ∈ known
    · rw [resolveRecord_of_mem hknown, resolveRecord_of_mem hknown]
      refine ⟨rfl, fun a known' ha => ?_, nofun⟩
      cases ha
      exact ⟨hroom, hroom'⟩
    have hfound := halike.record name hname.reaches
    cases hd : s.record? name with
    | none =>
      rw [hd] at hfound
      rw [resolveRecord_of_none hknown hd,
        resolveRecord_of_none hknown (optionRel_none_left hfound)]
      refine ⟨rfl, nofun, fun e he => ?_⟩
      cases he
      exact .record hname hd
    | some d =>
      rw [hd] at hfound
      obtain ⟨d', hd', hfields⟩ := optionRel_some_left hfound
      have hless := length_unspelled_lt hd hknown
      have hless' := length_unspelled_lt hd' hknown
      obtain ⟨rest, rfl⟩ : ∃ k, fuel = k + 1 := ⟨fuel - 1, by omega⟩
      obtain ⟨rest', rfl⟩ : ∃ k, fuel' = k + 1 := ⟨fuel' - 1, by omega⟩
      rw [resolveRecord_of_some hknown hd, resolveRecord_of_some hknown hd']
      -- With the record known there is room for one record less, and one is spelled out.
      obtain ⟨heq, hkeep, hfault⟩ := settles_spellOut hs halike
        (fun _ _ hn => ih rest (Nat.lt_succ_self rest) rest' hn) hname.reaches hd hfields
        (name :: known) ⟨by omega, by omega⟩
      refine ⟨heq, fun a known' ha => ?_, hfault⟩
      obtain ⟨hleft, hleft'⟩ := hkeep a known' ha
      exact ⟨Nat.le_succ_of_le hleft, Nat.le_succ_of_le hleft'⟩

/-! ### The outcome -/

/-- **Any two runs from the root settle.** -/
theorem settles_root (hs : s.Declared) (halike : s.AlikeFor s' root) {fuel fuel' : Nat}
    (hfuel : s.records.length ≤ fuel) (hfuel' : s'.records.length ≤ fuel') :
    s'.resolveType tagEncoding (s'.resolveRecord tagEncoding fuel') false "root" root [] =
      s.resolveType tagEncoding (s.resolveRecord tagEncoding fuel) false "root" root [] ∧
    ∀ e, s.resolveType tagEncoding (s.resolveRecord tagEncoding fuel) false "root" root [] =
      .error e → s.Fault tagEncoding root e := by
  obtain ⟨heq, -, hfault⟩ := settles_resolveType hs halike
    (fun _ _ hname => settles_resolveRecord hs halike fuel fuel' hname) false .root []
    ⟨s.length_unspelled_nil ▸ hfuel, s'.length_unspelled_nil ▸ hfuel'⟩
  exact ⟨heq, hfault⟩

/-- **An error is a fault.** -/
theorem fault_of_layout (hs : s.Declared) {e : SchemaError}
    (h : s.layout tagEncoding root = .error e) : s.Fault tagEncoding root e := by
  rw [layout_eq_map] at h
  refine (settles_root hs (AlikeFor.refl s root) (Nat.le_refl _) (Nat.le_refl _)).2 e ?_
  generalize s.resolveType tagEncoding (s.resolveRecord tagEncoding s.records.length) false "root"
    root [] = result at h
  cases result <;> cases h
  rfl

/-- **A layout is a matter of what the wire shows** of the records and groups that the root leads
to. -/
theorem layout_eq_of_alikeFor (hs : s.Declared) (halike : s.AlikeFor s' root) :
    s'.layout tagEncoding root = s.layout tagEncoding root := by
  rw [layout_eq_map, layout_eq_map,
    (settles_root hs halike (Nat.le_refl s.records.length) (Nat.le_refl s'.records.length)).1]

/-- **What the root does not lead to has no part in its layout.** -/
theorem layout_eq_of_sameFor (hs : s.Declared) (hsame : s.SameFor s' root) :
    s'.layout tagEncoding root = s.layout tagEncoding root :=
  layout_eq_of_alikeFor hs hsame.alikeFor

/-- Where there is a layout, nothing is missing. -/
theorem Resolves.complete (h : s.Resolves tagEncoding root a) : s.Complete tagEncoding root where
  record name hname := by
    obtain ⟨fields, hnode⟩ := h.spelled_iff.2 hname
    obtain ⟨d, hd, -⟩ := h.spells name fields hnode
    exact ⟨d, hd⟩
  group group hgroup := by
    obtain ⟨varLength, b, hlays, -⟩ := h.exists_node hgroup
    cases hlays with
    | @subtypes _ d tagged members hd htagged hmembers =>
      obtain ⟨rfl, -⟩ := GroupDecl.taggedMembers_eq_ok htagged
      refine ⟨d, hd, fun x hx => ?_⟩
      -- The resolver refuses tags beyond the encoding, so those of the layout fit.
      obtain ⟨m, -, htag, -, hmax, -⟩ := exists_mem_of_forall₂_left hmembers hx
      exact htag ▸ hmax

/-- **A root type has a layout exactly if nothing is missing.** -/
theorem exists_layout_iff_complete (hs : s.Declared) :
    (∃ a, s.layout tagEncoding root = .ok a) ↔ s.Complete tagEncoding root := by
  constructor
  · rintro ⟨a, ha⟩
    exact (resolves_of_layout ha).complete
  · intro hcomplete
    -- Neither an answer nor a fault is impossible.
    cases h : s.layout tagEncoding root with
    | ok a => exact ⟨a, rfl⟩
    | error e => exact absurd (fault_of_layout hs h) hcomplete.not_fault

end Schema

end SchemaWire

import SchemaWire.Proofs.Layout.Extension
import SchemaWire.Proofs.Program.Family
import SchemaWire.Proofs.Schema.Reachability
/-!
# Schemas that evolve

A schema **extends** another one below a root (`Schema.Extends`) if every record that the root leads
to has kept its fields, in wire order, and gained some that are newer than all versions there were,
while every group has kept its members. Nothing is said about what the root does not lead to, and
nothing about where in the layout anything is spelled out.

* `Schema.Extends.similar` — the layouts of a type in both schemas are similar.
* `Schema.Extends.similar_fieldsOf` — so are the fields of every record, up to the new ones.
* `Schema.Extends.newest_le` — the newest version of the layout does not go down.
-/

namespace SchemaWire

open Layout

/-- A record type has the fields of another one, and behind them some that are newer than a
version. -/
def RecordDecl.Extends (d d' : RecordDecl) (newest : Version) : Prop :=
  ∃ kept new, d'.wireFields = kept ++ new ∧ List.Forall₂ FieldDecl.Matches d.wireFields kept ∧
    ∀ f ∈ new, newest < f.added

namespace Schema

/-- **A schema that extends another one** below a root. -/
structure Extends (s s' : Schema) (root : TypeExpr) (newest : Version) : Prop where
  /-- Records gain new fields at their ends. -/
  record : ∀ name d, s.Reaches root (.record name) → s.record? name = some d →
    ∃ d', s'.record? name = some d' ∧ d.Extends d' newest
  /-- Groups keep their members, each with its tag. -/
  group : ∀ group d, s.Reaches root (.subtypes group) → s.group? group = some d →
    ∃ d', s'.group? group = some d' ∧ ∀ x, x ∈ d'.tags ↔ x ∈ d.tags

variable {s s' : Schema} {root t : TypeExpr} {newest : Version} {tagEncoding : TagEncoding}
  {varLength : Bool} {a b : Layout} {name : TypeName}

/-- The records that a root leads to. -/
def Known (s : Schema) (root : TypeExpr) (name : TypeName) : Prop := s.Reaches root (.record name)

/-- Under a name that the root leads to, a layout has the fields that have been declared. -/
theorem Resolves.laysFields (h : s.Resolves tagEncoding root a) (hname : s.Known root name) :
    ∃ d, s.record? name = some d ∧
      List.Forall₂ (s.LaysField tagEncoding) d.wireFields (a.fieldsOf name) := by
  obtain ⟨fields, hnode⟩ := h.spelled_iff.2 hname
  exact h.spells name _ (record_fieldsOf_mem_nodes hnode).1

namespace Extends

/-- What the root led to it still leads to. -/
theorem reaches (h : s.Extends s' root newest) (ht : s.Reaches root t) : s'.Reaches root t := by
  -- Along the path: each step has a counterpart in the later schema, which keeps the types of
  -- fields and tags.
  induction ht with
  | root => exact .root
  | nullable _ ih => exact ih.nullable
  | list _ ih => exact ih.list
  | @field name d f ht hd hf ih =>
    obtain ⟨d', hd', kept, new, hfields, hkept, -⟩ := h.record name d ht hd
    obtain ⟨g, hg, -, htype, -⟩ :=
      exists_mem_of_forall₂_left hkept (RecordDecl.mem_wireFields.2 hf)
    rw [← htype]
    refine ih.field hd' (RecordDecl.mem_wireFields.1 ?_)
    rw [hfields]
    exact List.mem_append_left _ hg
  | @member group d m ht hd hm ih =>
    obtain ⟨d', hd', htags⟩ := h.group group d ht hd
    obtain ⟨x, hx, hxtype⟩ := d.exists_tag hm
    obtain ⟨n, hn, hntype⟩ := d'.exists_member ((htags x).2 hx)
    rw [← hxtype, ← hntype]
    exact ih.member hd' hn

theorem asNullable (h : Similar (s.Known root) a b) :
    Similar (s.Known root) a.asNullable b.asNullable := by
  cases h with
  | primitive q => exact .nullable (.primitive q.ensureWrapped)
  | text => exact .nullable .text
  | nullable h => exact .nullable h
  | list h => exact .nullable (.list h)
  | subtypes hms hns => exact .nullable (.subtypes hms hns)
  | record hknown ha hb =>
    -- Four cases: on each side the record is spelled out or referred to.
    have hrecord := Similar.record hknown ha hb
    cases a <;> cases ha <;> cases b <;> cases hb <;> exact .nullable hrecord

/-- **A type is laid out alike in both schemas**, by induction on the type. -/
theorem similar (h : s.Extends s' root newest) (ht : s.Reaches root t)
    (ha : s.Lays tagEncoding varLength t a) (hb : s'.Lays tagEncoding varLength t b) :
    Similar (s.Known root) a b := by
  induction t generalizing a b with
  | scalar kind =>
    cases ha with | scalar => cases hb with | scalar => exact .primitive _
  | wrapped kind =>
    cases ha with | wrapped => cases hb with | wrapped => exact .primitive _
  | text =>
    cases ha with | text => cases hb with | text => exact .text
  | nullable t ih =>
    cases ha with
    | nullable ha => cases hb with | nullable hb => exact asNullable (ih ht.nullable ha hb)
  | list t ih =>
    cases ha with
    | list ha => cases hb with | list hb => exact .list (ih ht.list ha hb)
  | record name =>
    cases ha with
    | record ha => cases hb with | record hb => exact .record ht ha hb
  | subtypes group =>
    cases ha with
    | @subtypes _ d tagged ms hd htagged hms =>
      cases hb with
      | @subtypes _ d' tagged' ns hd' htagged' hns =>
        obtain ⟨rfl, -⟩ := GroupDecl.taggedMembers_eq_ok htagged
        obtain ⟨rfl, -⟩ := GroupDecl.taggedMembers_eq_ok htagged'
        obtain ⟨d'', hd'', htags⟩ := h.group group d ht hd
        cases hd'.symm.trans hd''
        -- The members correspond by their tags, in whatever order they stand.
        refine .subtypes (fun m hm => ?_) fun n hn => ?_
        · obtain ⟨x, hx, hmtag, hmtype, -⟩ := exists_mem_of_forall₂_right hms hm
          obtain ⟨n, hn, hntag, hntype, -⟩ := exists_mem_of_forall₂_left hns ((htags x).2 hx)
          obtain ⟨m', hm', hm'type⟩ := d.exists_member hx
          refine ⟨?_, n, hn, hntag.trans hmtag.symm, hntype.trans hmtype.symm⟩
          rw [hmtype, ← hm'type]
          exact ht.member hd hm'
        · obtain ⟨x, hx, hntag, hntype, -⟩ := exists_mem_of_forall₂_right hns hn
          obtain ⟨m, hm, hmtag, hmtype, -⟩ := exists_mem_of_forall₂_left hms ((htags x).1 hx)
          exact ⟨m, hm, hmtag.trans hntag.symm, hmtype.trans hntype.symm⟩

/-- **A record has kept its fields**, and the extra ones are newer than all of them. -/
theorem similar_fieldsOf (h : s.Extends s' root newest) (ha : s.Resolves tagEncoding root a)
    (hb : s'.Resolves tagEncoding root b) (hname : s.Known root name) :
    ∃ kept, b.fieldsOf name = kept ++ a.extraFields b name ∧
      List.Forall₂ (SimilarField (s.Known root)) (a.fieldsOf name) kept ∧
      ∀ f ∈ a.extraFields b name, newest < f.added := by
  obtain ⟨d, hd, hfields⟩ := ha.laysFields hname
  obtain ⟨d', hd', hfields'⟩ := hb.laysFields (h.reaches hname)
  obtain ⟨d'', hd'', kept, new, hwire, hkept, hnew⟩ := h.record name d hname hd
  cases hd'.symm.trans hd''
  rw [hwire] at hfields'
  -- The fields of the larger layout are cut where those of the smaller one end.
  have hlength : kept.length = (a.fieldsOf name).length :=
    hkept.length_eq.symm.trans hfields.length_eq
  have hold := (List.forall₂_take_append _ _ _ hfields'.flip).flip
  have hextra := (List.forall₂_drop_append _ _ _ hfields'.flip).flip
  rw [hlength] at hold hextra
  refine ⟨_, (List.take_append_drop _ _).symm, ?_, fun f hf => ?_⟩
  · -- A field is found in both layouts from one and the same declaration.
    have hreached : List.Forall₂ (fun f g => s.Reaches root f.type ∧ s.LaysField tagEncoding f g)
        d.wireFields (a.fieldsOf name) :=
      (List.forall₂_and_left _ _).2
        ⟨fun f hf => hname.field hd (RecordDecl.mem_wireFields.1 hf), hfields⟩
    refine forall₂_of_common ?_ hreached hkept hold
    rintro f x f' y ⟨ht, hxname, hxadded, hx⟩ ⟨hfname, hftype, hfadded, hfvar⟩
      ⟨hyname, hyadded, hy⟩
    rw [hftype, hfvar] at hy
    refine ⟨?_, ?_, h.similar ht hx hy⟩
    · rw [hxname, hyname, hfname]
    · rw [hxadded, hyadded, hfadded]
  · obtain ⟨g, hg, -, hadded, -⟩ := exists_mem_of_forall₂_right hextra hf
    rw [hadded]
    exact hnew g hg

/-- **The newest version does not go down.** -/
theorem newest_le (h : s.Extends s' root newest) (ha : s.Resolves tagEncoding root a)
    (hb : s'.Resolves tagEncoding root b) : a.newest ≤ b.newest := by
  rcases a.newest_eq_zero_or_mem with hzero | hmem
  · rw [hzero]
    exact UInt32.zero_le
  · -- The newest version is that of a field, which is still there.
    rw [versions, mem_ascendingVersions] at hmem
    obtain ⟨⟨name, fields⟩, hrecord, hadded⟩ := List.mem_flatMap.1 hmem
    obtain ⟨f, hf, hfadded⟩ := List.mem_map.1 hadded
    have hnode := mem_records_iff.1 hrecord
    have hname : s.Known root name := ha.spelled_iff.1 ⟨fields, hnode⟩
    obtain ⟨d, hd, hfields⟩ := ha.spells name fields hnode
    obtain ⟨f', hf', -, hf'added, -⟩ := exists_mem_of_forall₂_right hfields hf
    obtain ⟨d', hd', kept, new, hwire, hkept, -⟩ := h.record name d hname hd
    obtain ⟨g', hg', -, -, hg'added, -⟩ := exists_mem_of_forall₂_left hkept hf'
    obtain ⟨d'', hd'', hfields'⟩ := hb.laysFields (h.reaches hname)
    cases hd'.symm.trans hd''
    rw [hwire] at hfields'
    obtain ⟨g, hg, -, hgadded, -⟩ :=
      exists_mem_of_forall₂_left hfields' (List.mem_append_left _ hg')
    rw [← hfadded, hf'added, ← hg'added, ← hgadded]
    exact le_newest (added_mem_versions hg)

end Extends

end Schema

end SchemaWire

import Mathlib.Data.List.Basic
import SchemaWire.Proofs.Layout.Snapshot
/-!
# Records among the nodes of a layout

A layout is looked up by name (`Layout.fieldsOf`) but made as a tree. Here the two views meet: the
fields found under a name are those of a node that spells the record out
(`Layout.record_mem_nodes`), a name that is spelled out anywhere is found
(`Layout.record_fieldsOf_mem_nodes`), and a layout without dangling references spells out every
record that it mentions (`Layout.exists_record_of_recordName?`).

A change of layouts that goes part by part changes all the nodes, and so the records among them
(`Layout.nodes_map`, `Layout.records_map`).
-/

namespace SchemaWire

/-- A field whose layout is changed. -/
def Field.map {α β : Type} (g : α → β) (f : Field α) : Field β := ⟨f.name, f.added, g f.layout⟩

/-- A member of a group whose layout is changed. -/
def Member.map {α β : Type} (g : α → β) (m : Member α) : Member β := ⟨m.tag, m.type, g m.layout⟩

namespace Layout

variable {a b c : Layout} {name : TypeName} {fields : List (Field Layout)}

/-! ### Nodes and parts -/

/-- The layouts directly inside a layout. -/
def parts : Layout → List Layout
  | .primitive _ | .text | .reference _ => []
  | .nullable inner => [inner]
  | .list member => [member]
  | .record _ fields => fields.map (·.layout)
  | .subtypes _ members => members.map (·.layout)

/-- **Induction on the parts of a layout**, whatever kind of layout it is. -/
theorem induction_parts {motive : Layout → Prop}
    (h : ∀ a, (∀ c ∈ a.parts, motive c) → motive a) (a : Layout) : motive a := by
  induction a with
  | primitive q | text | reference name => exact h _ (List.forall_mem_nil _)
  | nullable inner ih | list member ih => exact h _ (List.forall_mem_singleton.2 ih)
  | record name fields ih | subtypes group members ih => exact h _ (List.forall_mem_map.2 ih)

/-- The nodes of a layout are itself and those of its parts. -/
theorem nodes_eq_cons_flatMap (a : Layout) : a.nodes = a :: a.parts.flatMap nodes := by
  rw [nodes]
  congr 1
  -- By the parts that each kind of layout has.
  cases a with
  | primitive q | text | reference name => rfl
  | nullable inner | list member => exact (List.append_nil _).symm
  | record name fields =>
    rw [descendants, fieldNodes_eq_flatMap, parts, List.flatMap_map]
  | subtypes group members =>
    rw [descendants, memberNodes_eq_flatMap, parts, List.flatMap_map]

theorem mem_nodes_iff : b ∈ a.nodes ↔ b = a ∨ ∃ c ∈ a.parts, b ∈ c.nodes := by
  rw [nodes_eq_cons_flatMap, List.mem_cons, List.mem_flatMap]

theorem mem_nodes_self (a : Layout) : a ∈ a.nodes := List.mem_cons_self

theorem mem_nodes_of_part (hc : c ∈ a.parts) (hb : b ∈ c.nodes) : b ∈ a.nodes :=
  mem_nodes_iff.2 (.inr ⟨c, hc, hb⟩)

theorem layout_mem_parts {f : Field Layout} (hf : f ∈ fields) :
    f.layout ∈ (record name fields).parts :=
  List.mem_map.2 ⟨f, hf, rfl⟩

theorem member_mem_parts {group : GroupName} {members : List (Member Layout)}
    {m : Member Layout} (hm : m ∈ members) : m.layout ∈ (subtypes group members).parts :=
  List.mem_map.2 ⟨m, hm, rfl⟩

/-- The nodes inside a node are nodes. -/
theorem nodes_trans (hb : b ∈ a.nodes) (hc : c ∈ b.nodes) : c ∈ a.nodes := by
  induction a using induction_parts with
  | h a ih =>
    rcases mem_nodes_iff.1 hb with rfl | ⟨part, hpart, hb⟩
    · exact hc
    · exact mem_nodes_of_part hpart (ih part hpart hb)

/-- What is directly inside a node is a node. -/
theorem mem_nodes_of_mem_parts (hb : b ∈ a.nodes) (hc : c ∈ b.parts) : c ∈ a.nodes :=
  nodes_trans hb (mem_nodes_of_part hc c.mem_nodes_self)

/-! ### Layouts changed throughout -/

/-- If the parts of every layout are changed along with it, all of its nodes are. -/
theorem nodes_map {g : Layout → Layout} (hg : ∀ a, (g a).parts = a.parts.map g) (a : Layout) :
    (g a).nodes = a.nodes.map g := by
  induction a using induction_parts with
  | h a ih =>
    have hparts : (a.parts.map g).flatMap nodes = (a.parts.flatMap nodes).map g := by
      rw [List.flatMap_map, List.map_flatMap]
      exact List.flatMap_congr ih
    rw [nodes_eq_cons_flatMap, hg, hparts, nodes_eq_cons_flatMap a, List.map_cons]

/-- The records that are spelled out are changed along with the nodes. -/
theorem records_map {g : Layout → Layout}
    {h : TypeName × List (Field Layout) → TypeName × List (Field Layout)}
    (hg : ∀ a, (g a).parts = a.parts.map g) (hspelled : ∀ a, (g a).spelled? = a.spelled?.map h)
    (a : Layout) : (g a).records = a.records.map h := by
  rw [records, records, nodes_map hg, List.filterMap_map, List.map_filterMap]
  exact List.filterMap_congr fun b _ => hspelled b

/-! ### Looking up by name -/

theorem mem_records_iff : (name, fields) ∈ a.records ↔ record name fields ∈ a.nodes := by
  unfold records
  rw [List.mem_filterMap]
  constructor
  · rintro ⟨b, hb, hspelled⟩
    -- Only a spelled-out record contributes an entry.
    cases b <;> cases hspelled
    exact hb
  · intro h
    exact ⟨_, h, rfl⟩

theorem mem_of_lookup_eq_some {rs : List (TypeName × List (Field Layout))}
    (h : rs.lookup name = some fields) : (name, fields) ∈ rs := by
  obtain ⟨before, after, rfl, -⟩ := List.lookup_eq_some_iff.1 h
  exact List.mem_append_right _ List.mem_cons_self

/-- The fields under a name that is spelled out are those of a node. -/
theorem record_mem_nodes (h : fields ≠ []) (hfields : a.fieldsOf name = fields) :
    record name fields ∈ a.nodes := by
  unfold fieldsOf at hfields
  -- Fields that are there are those of an entry.
  cases hlookup : a.records.lookup name with
  | none =>
    rw [hlookup] at hfields
    exact absurd hfields.symm h
  | some found =>
    rw [hlookup] at hfields
    exact mem_records_iff.1 (mem_of_lookup_eq_some (hlookup.trans (congrArg some hfields)))

/-- A record that is spelled out somewhere is found under its name, as some node spells it out. -/
theorem record_fieldsOf_mem_nodes (h : record name fields ∈ a.nodes) :
    record name (a.fieldsOf name) ∈ a.nodes ∧ name ∈ a.records.map (·.1) := by
  have hname : (name, fields) ∈ a.records := mem_records_iff.2 h
  refine ⟨?_, List.mem_map.2 ⟨_, hname, rfl⟩⟩
  -- The name has an entry, so the search finds one.
  cases hlookup : a.records.lookup name with
  | none =>
    have := List.lookup_eq_none_iff.1 hlookup _ hname
    simp at this
  | some found =>
    rw [fieldsOf, hlookup]
    exact mem_records_iff.1 (mem_of_lookup_eq_some hlookup)

/-- The version of every field is one of those at which the layout changes. -/
theorem added_mem_versions {f : Field Layout} (h : f ∈ a.fieldsOf name) : f.added ∈ a.versions := by
  have hnode := record_mem_nodes (List.ne_nil_of_mem h) rfl
  rw [versions, mem_ascendingVersions]
  exact List.mem_flatMap.2 ⟨_, mem_records_iff.2 hnode, List.mem_map.2 ⟨f, h, rfl⟩⟩

/-! ### References -/

/-- A layout that hands over to a record refers to it or spells it out. -/
theorem recordName?_eq_some_iff :
    a.recordName? = some name ↔ a = reference name ∨ ∃ fields, a = record name fields := by
  constructor
  · intro h
    cases a <;> cases h
    · exact .inr ⟨_, rfl⟩
    · exact .inl rfl
  · rintro (rfl | ⟨fields, rfl⟩) <;> rfl

theorem exists_record_of_firstDangling? {known : List TypeName} {bs : List Layout}
    (h : firstDangling? known bs = none) (hname : reference name ∈ bs) :
    name ∈ known ∨ ∃ fields, record name fields ∈ bs := by
  -- By induction on the nodes, in the order in which the check walks along them.
  induction bs generalizing known with
  | nil => cases hname
  | cons b bs ih =>
    rcases List.mem_cons.1 hname with rfl | hname
    · rw [firstDangling?] at h
      split at h
      · next hknown => exact .inl hknown
      · cases h
    · -- What is known grows only by a record that is spelled out here.
      have hlater {known' : List TypeName} (h : firstDangling? known' bs = none)
          (hknown : name ∈ known' → name ∈ known ∨ ∃ fields, record name fields ∈ b :: bs) :
          name ∈ known ∨ ∃ fields, record name fields ∈ b :: bs := by
        rcases ih h hname with hk | ⟨fields, hf⟩
        · exact hknown hk
        · exact .inr ⟨fields, List.mem_cons_of_mem _ hf⟩
      cases b with
      | record n fields =>
        refine hlater h fun hk => ?_
        rcases List.mem_cons.1 hk with rfl | hk
        · exact .inr ⟨fields, List.mem_cons_self⟩
        · exact .inl hk
      | reference n =>
        rw [firstDangling?] at h
        split at h
        · exact hlater h .inl
        · cases h
      | primitive _ | text | nullable _ | list _ | subtypes _ _ => exact hlater h .inl

/-- **A layout without dangling references spells out the records that it mentions.** -/
theorem exists_record_of_recordName? (h : a.dangling? = none) (hb : b ∈ a.nodes)
    (hname : b.recordName? = some name) : ∃ fields, record name fields ∈ a.nodes := by
  cases b <;> cases hname
  case record fields => exact ⟨fields, hb⟩
  case reference =>
    rcases exists_record_of_firstDangling? h hb with hknown | hrecord
    · cases hknown
    · exact hrecord

end Layout

end SchemaWire

import SchemaWire.Proofs.Schema.Resolution
/-!
# The types that a root leads to

A layout spells records out where they occur first, so which record stands where depends on the
order in which the layout is read. Which records it spells out does not: they are those that the
root type leads to (`Schema.Reaches`) through nullables, lists, the fields of records and the
members of groups.

* `Schema.Resolves.exists_node` — every type that the root leads to has a node in the layout;
* `Schema.Resolves.stands` — every node in the layout is that of a type that the root leads to;
* `Schema.Resolves.spelled_iff` — so a layout spells out exactly the records that its root leads to.

A scalar under a nullable is boxed, and its node is that of no type that is mentioned; scalars lead
nowhere, so they are left out of both statements.
-/

namespace SchemaWire

theorem GroupDecl.exists_tag (d : GroupDecl) {m : MemberDecl} (hm : m ∈ d.members) :
    ∃ x ∈ d.tags, x.2 = m.type := by
  have h : m.type ∈ d.tags.map (·.2) := by
    rw [d.map_snd_tags]
    exact List.mem_map.2 ⟨m, hm, rfl⟩
  exact List.mem_map.1 h

theorem GroupDecl.exists_member (d : GroupDecl) {x : UInt32 × TypeName} (hx : x ∈ d.tags) :
    ∃ m ∈ d.members, m.type = x.2 := by
  have h : x.2 ∈ d.memberTypes := d.map_snd_tags ▸ List.mem_map.2 ⟨x, hx, rfl⟩
  exact List.mem_map.1 h

namespace Schema

/-- **The types that a root type leads to.** -/
inductive Reaches (s : Schema) (root : TypeExpr) : TypeExpr → Prop
  | root : Reaches s root root
  | nullable {t : TypeExpr} (h : Reaches s root (.nullable t)) : Reaches s root t
  | list {t : TypeExpr} (h : Reaches s root (.list t)) : Reaches s root t
  | field {name : TypeName} {d : RecordDecl} {f : FieldDecl} (h : Reaches s root (.record name))
      (hd : s.record? name = some d) (hf : f ∈ d.fields) : Reaches s root f.type
  | member {group : GroupName} {d : GroupDecl} {m : MemberDecl}
      (h : Reaches s root (.subtypes group)) (hd : s.group? group = some d) (hm : m ∈ d.members) :
      Reaches s root (.record m.type)

variable {s : Schema} {tagEncoding : TagEncoding} {varLength : Bool} {root t : TypeExpr}
  {a b : Layout}

/-! ### Which type a layout lays out -/

theorem Lays.of_list (h : s.Lays tagEncoding varLength t (.list a)) :
    ∃ u, t = .list u ∧ s.Lays tagEncoding varLength u a := by
  generalize hb : Layout.list a = b at h
  cases h with
  | list h => exact ⟨_, rfl, by cases hb; exact h⟩
  | @nullable _ c _ => cases c <;> cases hb
  | record h => cases hb; cases h
  | _ => cases hb

theorem Lays.of_record {name : TypeName} (h : s.Lays tagEncoding varLength t a)
    (ha : a.recordName? = some name) : t = .record name := by
  cases h with
  | record h => cases h.symm.trans ha; rfl
  | @nullable _ c _ => cases c <;> cases ha
  | _ => cases ha

theorem Lays.of_subtypes {group : GroupName} {members : List (Member Layout)}
    (h : s.Lays tagEncoding varLength t (.subtypes group members)) :
    t = .subtypes group ∧ ∃ d tagged, s.group? group = some d ∧ d.taggedMembers = .ok tagged ∧
      List.Forall₂ (LaysMember tagEncoding) tagged members := by
  generalize hb : Layout.subtypes group members = b at h
  -- Only a group is laid out as one; a cover or a record has a form of its own.
  cases h with
  | subtypes hd htagged hmembers =>
    cases hb
    exact ⟨rfl, _, _, hd, htagged, hmembers⟩
  | @nullable _ c _ => cases c <;> cases hb
  | record h => cases hb; cases h
  | _ => cases hb

/-! ### From types to nodes -/

/-- Where a record has a node, it is spelled out. -/
theorem Resolves.exists_record_of_lays (h : s.Resolves tagEncoding root a) {name : TypeName}
    (hb : s.Lays tagEncoding varLength (.record name) b)
    (hnode : (∀ q, b ≠ .primitive q) → b ∈ a.nodes) :
    ∃ fields, Layout.record name fields ∈ a.nodes := by
  cases hb with
  | record hname =>
    refine Layout.exists_record_of_recordName? h.dangling (hnode ?_) hname
    rintro q rfl
    cases hname

/-- **Every type that the root leads to has a node**, unless it is a scalar. -/
theorem Resolves.exists_node (h : s.Resolves tagEncoding root a) (ht : s.Reaches root t) :
    ∃ varLength b, s.Lays tagEncoding varLength t b ∧
      ((∀ q, b ≠ .primitive q) → b ∈ a.nodes) := by
  induction ht with
  | root => exact ⟨false, a, h.lays, fun _ => a.mem_nodes_self⟩
  | nullable _ ih =>
    obtain ⟨varLength, b, hb, hnode⟩ := ih
    cases hb with
    | @nullable _ c hc =>
      refine ⟨varLength, c, hc, fun hc => ?_⟩
      -- What a nullable holds stands inside it, unless it is swallowed or boxed.
      cases c with
      | primitive q => exact absurd rfl (hc q)
      | nullable inner => exact hnode nofun
      | text | list _ | record _ _ | reference _ | subtypes _ _ =>
        exact Layout.mem_nodes_of_mem_parts (hnode nofun) List.mem_cons_self
  | list _ ih =>
    obtain ⟨varLength, b, hb, hnode⟩ := ih
    cases hb with
    | @list _ c hc =>
      refine ⟨varLength, c, hc, fun _ => ?_⟩
      exact Layout.mem_nodes_of_mem_parts (hnode nofun) List.mem_cons_self
  | @field name d f _ hd hf ih =>
    obtain ⟨varLength, b, hb, hnode⟩ := ih
    obtain ⟨fields, hrecord⟩ := h.exists_record_of_lays hb hnode
    -- The node of the record may be a reference, but somewhere the record is spelled out.
    obtain ⟨d', hd', hfields⟩ := h.spells name fields hrecord
    cases hd.symm.trans hd'
    obtain ⟨g, hg, -, -, hlays⟩ :=
      exists_mem_of_forall₂_left hfields (RecordDecl.mem_wireFields.2 hf)
    refine ⟨f.varLength, g.layout, hlays, fun _ => ?_⟩
    exact Layout.mem_nodes_of_mem_parts hrecord (Layout.layout_mem_parts hg)
  | @member group d m _ hd hm ih =>
    obtain ⟨varLength, b, hb, hnode⟩ := ih
    cases hb with
    | @subtypes _ d' tagged members hd' htagged hmembers =>
      cases hd.symm.trans hd'
      obtain ⟨rfl, -⟩ := GroupDecl.taggedMembers_eq_ok htagged
      obtain ⟨x, hx, hxtype⟩ := d.exists_tag hm
      obtain ⟨m', hm', -, htype, -, hname⟩ := exists_mem_of_forall₂_left hmembers hx
      rw [htype, hxtype] at hname
      refine ⟨false, m'.layout, .record hname, fun _ => ?_⟩
      exact Layout.mem_nodes_of_mem_parts (hnode nofun) (Layout.member_mem_parts hm')

/-! ### From nodes to types -/

/-- A layout is a scalar or that of a type that the root leads to. -/
def Stands (s : Schema) (tagEncoding : TagEncoding) (root : TypeExpr) (a : Layout) : Prop :=
  (∃ q, a = .primitive q) ∨ ∃ varLength t, s.Reaches root t ∧ s.Lays tagEncoding varLength t a

theorem stands_of_nullable (ht : s.Reaches root t)
    (h : s.Lays tagEncoding varLength t (.nullable a)) : s.Stands tagEncoding root a := by
  generalize hb : Layout.nullable a = b at h
  induction h with
  | @nullable t c hc ih =>
    -- Nullables that have been collapsed are passed one by one.
    cases c with
    | nullable inner => exact ih ht.nullable hb
    | primitive q =>
      cases hb
      exact .inl ⟨q.ensureWrapped, rfl⟩
    | text | list _ | record _ _ | reference _ | subtypes _ _ =>
      cases hb
      exact .inr ⟨varLength, t, ht.nullable, hc⟩
  | record h => cases hb; cases h
  | _ => cases hb

/-- If a layout is that of a type that the root leads to, then so are its parts. -/
theorem Stands.of_part (h : s.Stands tagEncoding root a) (hspells : s.Spells tagEncoding a)
    (hb : b ∈ a.parts) : s.Stands tagEncoding root b := by
  obtain ⟨q, rfl⟩ | ⟨varLength, t, ht, hlays⟩ := h
  · cases hb
  · cases a with
    | primitive q | text | reference name => cases hb
    | nullable inner =>
      cases List.mem_singleton.1 hb
      exact stands_of_nullable ht hlays
    | list member =>
      cases List.mem_singleton.1 hb
      obtain ⟨u, rfl, hu⟩ := hlays.of_list
      exact .inr ⟨varLength, u, ht.list, hu⟩
    | record name fields =>
      cases hlays.of_record rfl
      obtain ⟨d, hd, hfields⟩ := hspells name fields (Layout.mem_nodes_self _)
      obtain ⟨g, hg, rfl⟩ := List.mem_map.1 hb
      obtain ⟨f, hf, -, -, hglays⟩ := exists_mem_of_forall₂_right hfields hg
      exact .inr ⟨_, f.type, ht.field hd (RecordDecl.mem_wireFields.1 hf), hglays⟩
    | subtypes group members =>
      obtain ⟨rfl, d, tagged, hd, htagged, hmembers⟩ := hlays.of_subtypes
      obtain ⟨rfl, -⟩ := GroupDecl.taggedMembers_eq_ok htagged
      obtain ⟨m, hm, rfl⟩ := List.mem_map.1 hb
      obtain ⟨x, hx, -, htype, -, hname⟩ := exists_mem_of_forall₂_right hmembers hm
      -- The member has been declared with the type that is found in the layout.
      obtain ⟨m', hm', hm'type⟩ := d.exists_member hx
      rw [htype, ← hm'type] at hname
      exact .inr ⟨false, _, ht.member hd hm', .record hname⟩

theorem Stands.of_mem_nodes (h : s.Stands tagEncoding root a) (hspells : s.Spells tagEncoding a)
    (hb : b ∈ a.nodes) : s.Stands tagEncoding root b := by
  induction a using Layout.induction_parts with
  | h a ih =>
    rcases Layout.mem_nodes_iff.1 hb with rfl | ⟨c, hc, hb⟩
    · exact h
    · exact ih c hc (h.of_part hspells hc) (hspells.of_part hc) hb

/-- **Every node is that of a type that the root leads to**, unless it is a scalar. -/
theorem Resolves.stands (h : s.Resolves tagEncoding root a) (hb : b ∈ a.nodes) :
    s.Stands tagEncoding root b :=
  Stands.of_mem_nodes (.inr ⟨false, root, .root, h.lays⟩) h.spells hb

/-- **A layout spells out exactly the records that its root leads to.** -/
theorem Resolves.spelled_iff (h : s.Resolves tagEncoding root a) {name : TypeName} :
    (∃ fields, Layout.record name fields ∈ a.nodes) ↔ s.Reaches root (.record name) := by
  constructor
  · rintro ⟨fields, hnode⟩
    obtain ⟨q, hq⟩ | ⟨varLength, t, ht, hlays⟩ := h.stands hnode
    · cases hq
    · cases hlays.of_record rfl
      exact ht
  · -- The type has a node; what is referred to there is spelled out at some other node.
    intro ht
    obtain ⟨varLength, b, hlays, hnode⟩ := h.exists_node ht
    exact h.exists_record_of_lays hlays hnode

end Schema

end SchemaWire

import SchemaWire.Proofs.Program.Table
import SchemaWire.Proofs.Serializer.Building
/-!
# The layouts that are built

Whatever the records and groups of a schema refer to, the layout that is built of a root type is
well formed (`Schema.WellFormed`): its records are spelled out once and first, with the fields that
have been declared, its nullables do not nest and hold boxed scalars, and its groups are unambiguous
(`Builder.build_wellFormed`).

So the programs made of it find every record that they look up, and the check for references that
come too early, which building makes all the same, has nothing to report.
-/

namespace SchemaWire

namespace Schema

variable {s : Schema} {tagEncoding : TagEncoding} {root : TypeExpr} {a : Layout}

/-- **Well-formed layouts.** -/
structure WellFormed (s : Schema) (tagEncoding : TagEncoding) (a : Layout) : Prop where
  /-- The first mention of a record spells it out, and all others refer to it. -/
  spelledFirst : a.SpelledFirst
  /-- The fields of a record are the declared ones in wire order, each laid out as its type says.
  They have different names, and none is older than one before it. -/
  fields : ∀ name fields, Layout.record name fields ∈ a.nodes → ∃ d, s.record? name = some d ∧
    List.Forall₂ (s.LaysField tagEncoding) d.wireFields fields ∧
    (fields.map (·.name)).Nodup ∧ fields.Pairwise fun f g => f.added ≤ g.added
  /-- A nullable holds no nullable, and a scalar in it is boxed. -/
  nullables : ∀ inner, Layout.nullable inner ∈ a.nodes →
    inner.isNullable = false ∧ ∀ q, inner = .primitive q → q.wrapped = true
  /-- Only integers have a variable length. -/
  lengths : ∀ q, Layout.primitive q ∈ a.nodes → q.varLength = true → q.kind.isInteger = true
  /-- The members of a group have different tags, which can be carried, and different types, and
  each is the record of its type, spelled out or referred to. -/
  groups : ∀ group members, Layout.subtypes group members ∈ a.nodes →
    (members.map (·.tag)).Nodup ∧ (members.map (·.type)).Nodup ∧ ∀ m ∈ members,
      m.tag ≤ tagEncoding.maxTag ∧
      (m.layout = .reference m.type ∨ ∃ fields, m.layout = .record m.type fields)

/-- Every node of a layout that resolution gives has the shape of resolved layouts. -/
theorem Resolves.proper_of_mem_nodes (hs : s.Declared) (h : s.Resolves tagEncoding root a)
    {b : Layout} (hb : b ∈ a.nodes) : b.Proper tagEncoding := by
  obtain ⟨q, rfl⟩ | ⟨varLength, t, -, hlays⟩ := h.stands hb
  · trivial
  · exact hlays.proper hs

theorem Resolves.wellFormed (hs : s.Declared) (h : s.Resolves tagEncoding root a)
    (hfirst : a.SpelledFirst) : s.WellFormed tagEncoding a where
  spelledFirst := hfirst
  fields name fields hnode := by
    -- The fields are laid out from a declaration that has passed its checks.
    obtain ⟨d, hd, hfields⟩ := h.spells name fields hnode
    have hcheck := hs.checked.1 d (record?_eq_some hd).1
    refine ⟨d, hd, hfields, ?_, ?_⟩
    · rw [map_eq_map_of_forall₂ (hfields.imp fun _ _ hf => hf.1)]
      exact RecordDecl.nodup_wireFields hcheck
    · have hadded := List.pairwise_map.2 (RecordDecl.pairwise_wireFields hcheck)
      rw [← map_eq_map_of_forall₂ (hfields.imp fun _ _ hf => hf.2.1)] at hadded
      exact List.pairwise_map.1 hadded
  nullables inner hnode := by
    obtain ⟨hinner, hboxed, -⟩ := h.proper_of_mem_nodes hs hnode
    exact ⟨hinner, hboxed⟩
  lengths q _ := q.isInteger_of_varLength
  groups group members hnode := by
    obtain ⟨htags, htypes, hmembers⟩ := h.proper_of_mem_nodes hs hnode
    refine ⟨htags, htypes, fun m hm => ?_⟩
    obtain ⟨hmax, hname⟩ := hmembers m hm
    exact ⟨hmax, Layout.recordName?_eq_some_iff.1 hname⟩

/-- No place where a type is mentioned is called like this. -/
theorem Mentions.referrer_ne {referrer : String} {t : TypeExpr}
    (h : s.Mentions root referrer t) : referrer ≠ "a reference preceding its definition" := by
  induction h with
  | root => decide
  | nullable _ ih | list _ ih => exact ih
  | @field name d f _ _ _ =>
    -- A field is named with a dot.
    intro heq
    have hdot : '.' ∈ (name ++ "." ++ f.name).toList := by simp
    rw [heq] at hdot
    revert hdot
    decide
  | @member group _ _ _ _ _ =>
    intro heq
    have hfirst := congrArg (·.toList.head?) heq
    simp at hfirst

end Schema

namespace Builder

variable {b : Builder}

/-- **What is built is well formed.** The resolver makes well-formed layouts; they are what building
goes on with, and it never complains about a reference in them. The programs of such a layout, at
all versions and in all formats, find every record that they look up; nothing that might be put
behind their tables, for a search that has failed there to find, would ever be used. -/
theorem build_wellFormed (hb : b.schema.Declared) (root : TypeExpr) (cache : ProgramCache) :
    (∀ s, (b.build root cache).1 = .ok s →
      ∃ known, b.schema.resolveType b.settings.tagEncoding
        (b.schema.resolveRecord b.settings.tagEncoding b.schema.records.length) false "root" root [] =
          .ok (s.layout, known)) ∧
    (∀ a known, b.schema.resolveType b.settings.tagEncoding
        (b.schema.resolveRecord b.settings.tagEncoding b.schema.records.length) false "root" root [] =
          .ok (a, known) →
      b.schema.WellFormed b.settings.tagEncoding a ∧ ∀ version format,
        let p := Program.ofLayout a version format b.settings.tagEncoding
        p.Closed ∧ ∀ more, (p.withMore more).decode = p.decode ∧
          ∀ room v, (p.withMore more).script room v = p.script room v) ∧
    ∀ type, (b.build root cache).1 ≠
      .error (.unresolvable type "a reference preceding its definition") := by
  refine ⟨fun s hs => ?_, fun a known ha => ?_, fun type htype => ?_⟩
  · obtain ⟨a, found, ha, -, rfl⟩ := build_eq_ok_iff.1 (Prod.ext hs rfl)
    exact (Schema.layout_eq_ok_iff.1 ha).2
  · have hlayout : b.schema.layout b.settings.tagEncoding root = .ok a := by
      rw [Schema.layout_eq_map, ha]
      rfl
    have hfirst := Schema.spelledFirst_of_layout hlayout
    refine ⟨(Schema.resolves_of_layout hlayout).wellFormed hb hfirst, fun version format => ?_⟩
    have hclosed := Program.closed_ofLayout hfirst version format b.settings.tagEncoding
    exact ⟨hclosed, fun more => ⟨hclosed.decode_withMore, hclosed.script_withMore⟩⟩
  · -- An error is a fault, and none of these is reported from such a place.
    cases Schema.fault_of_layout hb (build_eq_error_iff.1 htype) with
    | record hmention _ => exact hmention.referrer_ne rfl
    | group hmention _ => exact hmention.referrer_ne rfl

/-- The layout of a chain is well formed, although its record contains itself: what the record is
said to hold is found under its name. -/
theorem build_wellFormed_chain :
    let b : Builder := { schema := Chain.schema }
    let p := Program.ofLayout Chain.layout 1 Level.level3.format .u8
    b.schema.Declared ∧ (∃ known, b.schema.resolveType b.settings.tagEncoding
      (b.schema.resolveRecord b.settings.tagEncoding 1) false "root" (.record "Chain") [] =
        .ok (Chain.layout, known)) ∧
      b.schema.WellFormed b.settings.tagEncoding Chain.layout ∧
      ∃ (i : Nat) (fields : List (Field Layout)), p.records[i]? = some ("Chain", fields) ∧
        p.records.lookup "Chain" = some fields := by
  intro b p
  obtain ⟨-, known, hresolve⟩ :=
    Schema.layout_eq_ok_iff.1 (Chain.layout_schema b.settings.tagEncoding)
  obtain ⟨-, hwellFormed, -⟩ :=
    build_wellFormed (b := b) Chain.declared_schema (.record "Chain") { number := 0 }
  obtain ⟨hchain, hprograms⟩ := hwellFormed Chain.layout known hresolve
  -- The reference in the chain is looked up.
  have hlooked : p.LooksUp "Chain" := .root (b := .reference "Chain") (by decide) rfl
  exact ⟨Chain.declared_schema, ⟨known, hresolve⟩, hchain,
    (hprograms 1 Level.level3.format).1 _ hlooked⟩

end Builder

end SchemaWire

import SchemaWire.Proofs.Serializer.Building
/-!
# Least sizes that do not fit a word

The least size of a record is the sum of those of its fields, and it is found record by record, so a
few declarations describe sizes far beyond what a machine can address. Nothing in the registration
of records or in the resolution of types keeps such sizes out: a tower of records, each of which has
some fields of the record below, is accepted and resolves, and its least size is its width to the
power of its height (`Tower.minSize_of_list_mem`).

A program is made with sizes in words. A sum in a word is the exact one or overflows, and it never
comes out smaller; so a list is measured exactly in whatever has been built, and a build in which the
size of some list's members overflows panics (`Builder.sizes_exact_or_build_panics`). Which lists are
measured depends on the version. From the newest one on, these are all that there are
(`Program.prepares_iff_mem_nodes`).
-/

namespace SchemaWire

namespace Layout

variable {a b c : Layout}

/-- A part of a node that is no record is met together with the node. -/
theorem Exposes.of_mem_parts (ha : ∀ name fields, a ≠ .record name fields) (hc : c ∈ a.parts)
    (hb : c.Exposes b) : a.Exposes b := by
  -- A layout that is no record exposes its parts and what those expose.
  cases a with
  | primitive q | text | reference name => cases hc
  | nullable inner =>
    cases List.mem_singleton.1 hc
    exact .nullable hb
  | list member =>
    cases List.mem_singleton.1 hc
    exact .list hb
  | record name fields => exact absurd rfl (ha name fields)
  | subtypes group members =>
    obtain ⟨m, hm, rfl⟩ := List.mem_map.1 hc
    exact .subtypes hm hb

end Layout

namespace Program

variable {a b c : Layout} {version : Version} {format : WireFormat} {tagEncoding : TagEncoding}

/-- Where all fields are on the wire, everything below a node is made ready, as long as the nodes are
that are met together with it. By induction on the parts of the node: what is met together with a
field of a record is made ready with the record. -/
theorem Prepares.of_exposes (h : a.SpelledFirst) (hversion : ∀ v ∈ a.versions, v ≤ version)
    (hc : c ∈ a.nodes)
    (hexposed : ∀ b, c.Exposes b → (ofLayout a version format tagEncoding).Prepares b) :
    ∀ b ∈ c.nodes, (ofLayout a version format tagEncoding).Prepares b := by
  induction c using Layout.induction_parts with
  | h c ih =>
    intro b hb
    obtain rfl | ⟨d, hd, hb⟩ := Layout.mem_nodes_iff.1 hb
    · exact hexposed b (.self b)
    · refine ih d hd (Layout.mem_nodes_of_mem_parts hc hd) (fun b' hb' => ?_) b hb
      by_cases hrecord : ∃ name fields, c = .record name fields
      · obtain ⟨name, fields, rfl⟩ := hrecord
        obtain ⟨f, hf, rfl⟩ := List.mem_map.1 hd
        have hspelled := Layout.mem_records_iff.2 hc
        -- The record is found with these fields and no others.
        obtain ⟨fields', -, hlookup, hfields⟩ := h.lookup_eq hc rfl
        obtain rfl := hfields fields hspelled
        have hfound : f ∈ a.fieldsOf name := by
          rw [Layout.fieldsOf, hlookup]
          exact hf
        exact .field hspelled
          (mem_present.2 ⟨hfound, hversion _ (Layout.added_mem_versions hfound)⟩) hb'
      · exact hexposed b' (.of_mem_parts (fun name fields heq => hrecord ⟨name, fields, heq⟩) hd hb')

/-- **From the newest version on, all nodes of a layout are made ready.** -/
theorem prepares_iff_mem_nodes (h : a.SpelledFirst) (hversion : ∀ v ∈ a.versions, v ≤ version) :
    (ofLayout a version format tagEncoding).Prepares b ↔ b ∈ a.nodes :=
  ⟨Prepares.mem_nodes,
    Prepares.of_exposes h hversion (Layout.mem_nodes_self a) (fun _ hb => .root hb) b⟩

end Program

namespace Builder

variable {b : Builder} {root : TypeExpr} {a : Layout}

/-- **Sizes are exact, or the build panics.** If a root resolves, then at each version the least size
of a node, added up in words, is the exact one or overflows. The build panics exactly if, at some
version, it does overflow for the members of a list that is on the wire there; in a serializer that
is built, the size of the members of each such list is exact. At the versions from the newest one on,
the lists in question are all those of the tree. -/
theorem sizes_exact_or_build_panics
    (h : b.schema.layout b.settings.tagEncoding root = .ok a) (cache : ProgramCache) :
    let p (version : Version) :=
      Program.ofLayout a version b.settings.level.format b.settings.tagEncoding
    (∀ version c, (p version).wordSize c =
      if (p version).minSize c < 2 ^ 64 then .fitting ((p version).minSize c) else .overflow) ∧
    ((b.build root cache).1 = .panic ↔ ∃ version member,
      (p version).Prepares (.list member) ∧ (p version).wordSize member = .overflow) ∧
    (∀ x, (b.build root cache).1 = .ok x → ∀ version member,
      (x.programs.programFor version).Prepares (.list member) →
        (x.programs.programFor version).wordSize member =
          .fitting ((x.programs.programFor version).minSize member)) ∧
    ∀ version, (∀ v ∈ a.versions, v ≤ version) →
      ∀ member, (p version).Prepares (.list member) ↔ .list member ∈ a.nodes := by
  intro p
  have hfirst := Schema.spelledFirst_of_layout h
  -- The sum in words is the exact one or has overflowed.
  have hword (q : Program) (c : Layout) : q.wordSize c =
      if q.minSize c < 2 ^ 64 then .fitting (q.minSize c) else .overflow := q.wordSize_eq c
  have hover (q : Program) (c : Layout) : q.wordSize c = .overflow ↔ ¬q.minSize c < 2 ^ 64 := by
    rw [hword]
    split <;> simp_all
  refine ⟨fun version => hword _, ?_, fun x hx version member hmember => ?_,
    fun version hversion member => Program.prepares_iff_mem_nodes hfirst hversion⟩
  · rw [build_eq_panic_iff]
    simp only [h, Except.ok.injEq, exists_eq_left', Layout.SizesFit, Program.SizesFit, not_forall,
      hover, exists_prop, p]
  · -- The program that serves the version is one of those for which all sizes fit.
    obtain ⟨a', found, hlayout, hrequest, rfl⟩ := build_eq_ok_iff.1 (Prod.ext hx rfl)
    cases h.symm.trans hlayout
    have hmade := ProgramCache.compile_of_request (congrArg Prod.fst hrequest)
    obtain ⟨hprograms, hfits⟩ := (ProgramFamily.compile_eq_some_iff hfirst).1 hmade
    have hserved : (Serializer.ofLayout a found b.settings).programs.programFor version =
        p (a.versionAt version) := by
      change found.2.programFor version = _
      rw [hprograms, ProgramFamily.programFor_ofLayout]
    rw [hserved] at hmember ⊢
    rw [hword, if_pos (hfits _ member hmember)]

end Builder

namespace Tower

/-- The root of a tower is a list. -/
theorem exists_member_of_layout {width height : Nat} {tagEncoding : TagEncoding} {a : Layout}
    (h : (schema width height).layout tagEncoding (root height) = .ok a) :
    ∃ member, a = .list member := by
  have hlays := (Schema.resolves_of_layout h).lays
  cases hlays with
  | list _ => exact ⟨_, rfl⟩

/-- Towers of width 16 can be measured up to a height of 15. -/
theorem sizes_exact_at_height_15 :
    ∃ (s : Serializer) (member : Layout), s.BuiltFrom (schema 16 15) (root 15) {} ∧
      s.layout = .list member ∧
      (s.programs.programFor 0).wordSize member = .fitting (16 ^ 15) := by
  let b : Builder := { schema := schema 16 15 }
  let cache : ProgramCache := { number := 0 }
  have hwidth : 0 < 16 := by decide
  obtain ⟨s, hs⟩ : ∃ s, (b.build (root 15) cache).1 = .ok s :=
    (Builder.build_tower hwidth 15 {} cache).1.2 (by decide)
  have hbuilt : s.BuiltFrom (schema 16 15) (root 15) {} :=
    ⟨declared_schema 16 15, cache, _, .new 0, Prod.ext hs rfl⟩
  have hlayout := hbuilt.eq_ofLayout.1
  obtain ⟨member, hmember⟩ := exists_member_of_layout hlayout
  obtain ⟨-, -, hexact, -⟩ := Builder.sizes_exact_or_build_panics (b := b) hlayout cache
  refine ⟨s, member, hbuilt, hmember, ?_⟩
  have hnode : .list member ∈ s.layout.nodes := hmember ▸ Layout.mem_nodes_self _
  have hprogram := hbuilt.programFor_eq 0
  -- The list is the root, so its member is measured at every version.
  have hroot : (s.programs.programFor 0).Prepares (.list member) := by
    rw [hprogram, ← hmember]
    exact .root (.self _)
  have hsize : (s.programs.programFor 0).minSize member = 16 ^ 15 := by
    rw [hprogram]
    exact minSize_of_list_mem (by decide) hbuilt.resolves hnode _ _
  rw [hexact s hs 0 member hroot, hsize]

/-- A list of towers resolves whose members have a least size beyond every word, and its build
panics. -/
theorem sizes_overflow_at_height_16 :
    (∃ member, (schema 16 16).layout .u8 (root 16) = .ok (.list member) ∧
      (∀ version format, (Program.ofLayout (.list member) version format .u8).minSize member =
        2 ^ 64) ∧
      ∀ cache, (({ schema := schema 16 16 } : Builder).build (root 16) cache).1 = .panic) ∧
    ¬∀ (s : Schema) (root : TypeExpr) (level : Level) (tagEncoding : TagEncoding)
      (version : Version) (a member : Layout), s.Declared → s.layout tagEncoding root = .ok a →
        .list member ∈ a.nodes →
          (Program.ofLayout a version level.format tagEncoding).minSize member ≤ 2 ^ 64 - 1 := by
  -- One storey higher the exact size is the first that is no word any more.
  obtain ⟨a, hlayout⟩ := exists_layout 16 16 .u8
  have hresolves := Schema.resolves_of_layout hlayout
  obtain ⟨member, rfl⟩ := exists_member_of_layout hlayout
  have hsize (version : Version) (format : WireFormat) :
      (Program.ofLayout (.list member) version format .u8).minSize member = 2 ^ 64 := by
    rw [minSize_of_list_mem (by decide) hresolves (Layout.mem_nodes_self _)]
    decide
  refine ⟨⟨member, hlayout, hsize, fun cache => ?_⟩, fun hbounded => ?_⟩
  · have hwidth : 0 < 16 := by decide
    exact (Builder.build_tower hwidth 16 {} cache).2.2 (by decide)
  · have hle := hbounded _ _ .level3 _ 0 _ member (declared_schema 16 16) hlayout
      (Layout.mem_nodes_self _)
    rw [hsize] at hle
    exact absurd hle (by decide)

end Tower

end SchemaWire

import SchemaWire.Proofs.Schema.Towers
import SchemaWire.Proofs.Serializer.Built
/-!
# What building comes to

Building gives a serializer, reports what is wrong with the schema, or panics. Which of these it is
depends on the schema, the root and the settings, and not on what the cache holds
(`Builder.map_layout_build`): resolution decides whether there is an error, and if there is none, the
sizes of the layout decide about the rest (`Builder.build_eq_ok_iff_complete`). For what the root
type leads to, both are a matter of the declarations; all others make no difference.
-/

namespace SchemaWire

/-! ### An example

Trees whose nodes are trees again or leaves, of which the leaves have not been declared. -/

namespace Tree

/-- The declaration of the record. -/
def decl : RecordDecl where
  name := "Tree"
  fields := [{ name := "left", type := .nullable (.subtypes "Node") }]

/-- The declaration of the group. -/
def group : GroupDecl where
  name := "Node"
  members := [{ type := "Tree" }, { type := "Leaf" }]

/-- A schema of the two. -/
def schema : Schema where
  records := [decl]
  groups := [group]

theorem wireFields_decl : decl.wireFields = decl.fields := List.mergeSort_of_pairwise (by decide)

theorem declared_schema : schema.Declared := by
  have hcheck : decl.check = .ok () := by
    unfold RecordDecl.check
    rw [wireFields_decl]
    rfl
  have hrecord : Schema.Declared { records := [decl] } :=
    Schema.Declared.empty.append_record hcheck rfl
  exact .group hrecord (show Schema.declareGroup _ group = .ok schema from rfl)

theorem reaches_group : schema.Reaches (.record "Tree") (.subtypes "Node") := by
  have hroot : schema.Reaches (.record "Tree") (.record "Tree") := .root
  have hfield : schema.Reaches (.record "Tree") (.nullable (.subtypes "Node")) :=
    hroot.field rfl (List.mem_singleton_self _)
  exact hfield.nullable

/-- What a tree leads to. -/
theorem mem_of_reaches {t : TypeExpr} (h : schema.Reaches (.record "Tree") t) :
    t ∈ [.record "Tree", .record "Leaf", .subtypes "Node", .nullable (.subtypes "Node")] := by
  -- The types reached from the root, step by step along the declarations.
  induction h with
  | root => decide
  | nullable _ ih =>
    obtain rfl := by simpa using ih
    decide
  | list _ ih => simp at ih
  | field _ hd hf ih =>
    obtain rfl | rfl := by simpa using ih
    · cases hd
      cases List.mem_singleton.1 hf
      decide
    · cases hd
  | member _ hd hm ih =>
    obtain rfl := by simpa using ih
    cases hd
    obtain rfl | rfl := by simpa [group] using hm
    all_goals decide

end Tree

namespace BuildResult

variable {α β : Type} {f : α → β} {r : BuildResult α}

theorem map_eq_ok_iff {y : β} : r.map f = .ok y ↔ ∃ x, r = .ok x ∧ f x = y := by
  cases r <;> simp [map]

theorem map_eq_error_iff {e : SchemaError} : r.map f = .error e ↔ r = .error e := by
  cases r <;> simp [map]

theorem map_eq_panic_iff : r.map f = .panic ↔ r = .panic := by
  cases r <;> simp [map]

end BuildResult

namespace Builder

variable {b : Builder} {root : TypeExpr} {cache : ProgramCache}

/-- How a build ends, and the layout of what has been built. -/
def outcome (b : Builder) (root : TypeExpr) : BuildResult Layout :=
  match b.schema.layout b.settings.tagEncoding root with
  | .error e => .error e
  | .ok a =>
    match ProgramFamily.compile a b.settings.level b.settings.tagEncoding with
    | some _ => .ok a
    | none => .panic

theorem outcome_of_layout {a : Layout}
    (h : b.schema.layout b.settings.tagEncoding root = .ok a) :
    b.outcome root =
      match ProgramFamily.compile a b.settings.level b.settings.tagEncoding with
      | some _ => .ok a
      | none => .panic := by
  rw [outcome, h]

/-- **The cache has no say in the outcome of a build.** -/
theorem map_layout_build (b : Builder) (root : TypeExpr) (cache : ProgramCache) :
    (b.build root cache).1.map (·.layout) = b.outcome root := by
  cases hlayout : b.schema.layout b.settings.tagEncoding root with
  | error e =>
    rw [build_of_error hlayout, outcome, hlayout]
    rfl
  | ok a =>
    have hanswer := cache.map_request ⟨a, b.settings.level, b.settings.tagEncoding⟩
    rw [ProgramKey.compile] at hanswer
    rw [build_of_layout hlayout, outcome_of_layout hlayout, ← hanswer]
    dsimp only
    -- Whether the cache has an answer is whether the programs can be made.
    cases (cache.request ⟨a, b.settings.level, b.settings.tagEncoding⟩).1 <;> rfl

/-- Building fails where resolution does. -/
theorem build_eq_error_iff {e : SchemaError} : (b.build root cache).1 = .error e ↔
    b.schema.layout b.settings.tagEncoding root = .error e := by
  rw [← BuildResult.map_eq_error_iff, map_layout_build]
  cases hlayout : b.schema.layout b.settings.tagEncoding root with
  | error e' => simp [outcome, hlayout]
  | ok a =>
    rw [outcome_of_layout hlayout]
    split <;> simp

/-- **A build that panics** has resolved its root, to a layout with sizes that do not fit. -/
theorem build_eq_panic_iff : (b.build root cache).1 = .panic ↔
    ∃ a, b.schema.layout b.settings.tagEncoding root = .ok a ∧
      ¬a.SizesFit b.settings.level b.settings.tagEncoding := by
  rw [← BuildResult.map_eq_panic_iff, map_layout_build]
  -- Only a layout that has been resolved gets as far as being compiled.
  cases hlayout : b.schema.layout b.settings.tagEncoding root with
  | error e => simp [outcome, hlayout]
  | ok a =>
    have hfirst := Schema.spelledFirst_of_layout hlayout
    simp only [outcome_of_layout hlayout, Except.ok.injEq, exists_eq_left',
      ← ProgramFamily.compile_eq_none_iff hfirst]
    cases ProgramFamily.compile a b.settings.level b.settings.tagEncoding <;> simp

/-- **A build that succeeds** has resolved its root, to a layout with sizes that fit. -/
theorem exists_build_eq_ok_iff : (∃ x, (b.build root cache).1 = .ok x) ↔
    ∃ a, b.schema.layout b.settings.tagEncoding root = .ok a ∧
      a.SizesFit b.settings.level b.settings.tagEncoding := by
  -- Of the three outcomes, this is the one that is left.
  cases hbuild : (b.build root cache).1 with
  | ok x =>
    obtain ⟨a, found, hlayout, hrequest, -⟩ := build_eq_ok_iff.1 (Prod.ext hbuild rfl)
    have hmade := ProgramCache.compile_of_request (congrArg Prod.fst hrequest)
    have hfits := (ProgramFamily.compile_eq_some_iff (Schema.spelledFirst_of_layout hlayout)).1 hmade
    exact iff_of_true ⟨x, rfl⟩ ⟨a, hlayout, hfits.2⟩
  | error e =>
    refine iff_of_false (fun ⟨_, h⟩ => nomatch h) fun ⟨a, hlayout, _⟩ => ?_
    cases hlayout.symm.trans (build_eq_error_iff.1 hbuild)
  | panic =>
    refine iff_of_false (fun ⟨_, h⟩ => nomatch h) fun ⟨a, hlayout, hfits⟩ => ?_
    obtain ⟨a', hlayout', hfits'⟩ := build_eq_panic_iff.1 hbuild
    cases hlayout.symm.trans hlayout'
    exact hfits' hfits

/-- **The outcome of building.** If something that the root leads to is not declared, or has a tag
that cannot be carried, the error names it and the place that refers to it. Otherwise a serializer is
built, or the build panics: it does if a list in the layout has members whose least size, at some
version, does not fit a word. The records of the schema are fuel enough for resolution, whatever
cycles there are among them, and what the root does not lead to makes no difference. -/
theorem build_eq_ok_iff_complete (hb : b.schema.Declared) (root : TypeExpr) (cache : ProgramCache) :
    ((∃ x, (b.build root cache).1 = .ok x) ↔
      b.schema.Complete b.settings.tagEncoding root ∧
        ∀ a, b.schema.layout b.settings.tagEncoding root = .ok a →
          a.SizesFit b.settings.level b.settings.tagEncoding) ∧
      ((b.build root cache).1 = .panic ↔
        b.schema.Complete b.settings.tagEncoding root ∧
          ∃ a, b.schema.layout b.settings.tagEncoding root = .ok a ∧
            ∃ version member,
              let p := Program.ofLayout a version b.settings.level.format b.settings.tagEncoding
              p.Prepares (.list member) ∧ 2 ^ 64 ≤ p.minSize member) ∧
      (∀ e, (b.build root cache).1 = .error e → b.schema.Fault b.settings.tagEncoding root e) ∧
      (∀ fuel, b.schema.records.length ≤ fuel →
        b.schema.layout b.settings.tagEncoding root =
          (b.schema.resolveType b.settings.tagEncoding
            (b.schema.resolveRecord b.settings.tagEncoding fuel) false "root" root []).map (·.1)) ∧
      ∀ schema : Schema, b.schema.SameFor schema root →
        ({ b with schema } : Builder).build root cache = b.build root cache := by
  have hcomplete : (∃ a, b.schema.layout b.settings.tagEncoding root = .ok a) ↔
      b.schema.Complete b.settings.tagEncoding root := Schema.exists_layout_iff_complete hb
  refine ⟨?_, ?_, fun e he => ?_, fun fuel hfuel => ?_, fun schema hsame => ?_⟩
  -- What the resolver returns is determined, so every layout it returns is this one.
  · rw [exists_build_eq_ok_iff, ← hcomplete]
    constructor
    · rintro ⟨a, hlayout, hfits⟩
      refine ⟨⟨a, hlayout⟩, fun a' hlayout' => ?_⟩
      cases hlayout.symm.trans hlayout'
      exact hfits
    · rintro ⟨⟨a, hlayout⟩, hfits⟩
      exact ⟨a, hlayout, hfits a hlayout⟩
  · rw [build_eq_panic_iff, ← hcomplete]
    -- Not fitting is a list at some version whose member has a size beyond a word.
    simp only [Layout.SizesFit, Program.SizesFit, not_forall, Nat.not_lt, exists_prop]
    constructor
    · rintro ⟨a, hlayout, hover⟩
      exact ⟨⟨a, hlayout⟩, a, hlayout, hover⟩
    · exact fun h => h.2
  · exact Schema.fault_of_layout hb (build_eq_error_iff.1 he)
  · rw [Schema.layout_eq_map,
      (Schema.settles_root hb (.refl b.schema root) (Nat.le_refl _) hfuel).1]
  · unfold build
    simp only
    rw [Schema.layout_eq_of_sameFor hb hsame]

/-- No serializer of trees is built, and something is to blame for it; another record in the schema
does not help. -/
theorem build_eq_ok_iff_complete_tree :
    let b : Builder := { schema := Tree.schema }
    let other : Schema := { records := [Chain.decl, Tree.decl], groups := [Tree.group] }
    b.schema.Declared ∧ b.schema.SameFor other (.record "Tree") ∧ ∀ cache : ProgramCache,
      ∃ e, (b.build (.record "Tree") cache).1 = .error e ∧
        b.schema.Fault b.settings.tagEncoding (.record "Tree") e ∧
        (({ schema := other } : Builder).build (.record "Tree") cache).1 = .error e := by
  intro b other
  have hsame : b.schema.SameFor other (.record "Tree") := by
    refine ⟨fun name h => ?_, fun group h => ?_⟩
    · obtain rfl | rfl := by simpa using Tree.mem_of_reaches h
      all_goals rfl
    · rfl
  refine ⟨Tree.declared_schema, hsame, fun cache => ?_⟩
  obtain ⟨hok, hpanic, hfault, -, hother⟩ :=
    build_eq_ok_iff_complete (b := b) Tree.declared_schema (.record "Tree") cache
  -- The group leads to a record that is not declared.
  have hincomplete : ¬b.schema.Complete b.settings.tagEncoding (.record "Tree") := by
    intro hcomplete
    obtain ⟨d, hd⟩ := hcomplete.record "Leaf"
      (Tree.reaches_group.member (m := { type := "Leaf" }) rfl (by decide))
    cases hd
  cases hbuild : (b.build (.record "Tree") cache).1 with
  | ok x => exact absurd (hok.1 ⟨x, hbuild⟩).1 hincomplete
  | error e => exact ⟨e, rfl, hfault e hbuild, (hother other hsame).symm ▸ hbuild⟩
  | panic => exact absurd (hpanic.1 hbuild).1 hincomplete

/-- **Lists of towers** are built as long as the towers are not too high, and their builds panic
otherwise. -/
theorem build_tower {width : Nat} (hwidth : 0 < width) (height : Nat) (settings : Settings)
    (cache : ProgramCache) :
    let b : Builder := ⟨Tower.schema width height, settings⟩
    ((∃ x, (b.build (Tower.root height) cache).1 = .ok x) ↔ width ^ height < 2 ^ 64) ∧
      ((b.build (Tower.root height) cache).1 = .panic ↔ 2 ^ 64 ≤ width ^ height) := by
  intro b
  obtain ⟨a, hlayout⟩ := Tower.exists_layout width height settings.tagEncoding
  have hfits : a.SizesFit settings.level settings.tagEncoding ↔ width ^ height < 2 ^ 64 :=
    Tower.sizesFit_iff hwidth (Schema.resolves_of_layout hlayout) _
  -- There is one layout, and its sizes fit or do not.
  rw [exists_build_eq_ok_iff, build_eq_panic_iff]
  simp only [b, hlayout, Except.ok.injEq, exists_eq_left', hfits, Nat.not_lt, and_self]

/-- Nothing is missing for a list of towers of width and height 16, but no serializer of it is
built. -/
theorem build_panics_of_complete :
    ((Tower.schema 16 16).Declared ∧ (Tower.schema 16 16).Complete .u8 (Tower.root 16) ∧
        ∀ cache, (({ schema := Tower.schema 16 16 } : Builder).build (Tower.root 16) cache).1 =
          .panic) ∧
      ¬∀ (b : Builder) (root : TypeExpr) (cache : ProgramCache), b.schema.Declared →
        ((∃ x, (b.build root cache).1 = .ok x) ↔
          b.schema.Complete b.settings.tagEncoding root) := by
  have hdeclared := Tower.declared_schema 16 16
  -- All names are declared, and still the sizes are beyond a word.
  have hcomplete := Tower.complete 16 16 TagEncoding.standard
  have hpanic (cache : ProgramCache) :
      (({ schema := Tower.schema 16 16 } : Builder).build (Tower.root 16) cache).1 = .panic :=
    (build_tower (by decide) 16 {} cache).2.2 (by decide)
  refine ⟨⟨hdeclared, hcomplete, hpanic⟩, fun hclaim => ?_⟩
  obtain ⟨x, hx⟩ :=
    (hclaim { schema := Tower.schema 16 16 } (Tower.root 16) { number := 0 } hdeclared).2 hcomplete
  cases hx.symm.trans (hpanic _)

end Builder

end SchemaWire

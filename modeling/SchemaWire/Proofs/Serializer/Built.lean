import SchemaWire.Builder
import SchemaWire.Proofs.Cache
import SchemaWire.Proofs.Program.Compilation
import SchemaWire.Proofs.Schema.Preorder
import SchemaWire.Proofs.Schema.Resolution
/-!
# Serializers that have been built

Everything that is said about a serializer is said of one that has come about by building
(`Serializer.BuiltFrom`, `Serializer.Built`): from a schema made of declarations, a root type and
settings, with a cache that serves other builds as well. Such a serializer consists of the layout of
the root and the programs of this layout, and what has been built before does not show
(`Serializer.BuiltFrom.eq_ofLayout`). At each version it then uses a program of the shape that both
directions of a codec rely on, with the fields of that version (`Serializer.BuiltFrom.program`).
-/

namespace SchemaWire

/-- **The caches that can arise.** -/
inductive ProgramCache.Reachable : ProgramCache → Prop
  | new (number : Nat) : Reachable { number }
  | request {cache : ProgramCache} (h : Reachable cache) (key : ProgramKey) :
      Reachable (cache.request key).2

namespace Builder

variable {b : Builder} {root : TypeExpr} {cache cache' : ProgramCache}

/-- The key under which a builder asks for the programs of a root. -/
def key? (b : Builder) (root : TypeExpr) : Option ProgramKey :=
  (b.schema.layout b.settings.tagEncoding root).toOption.map
    (⟨·, b.settings.level, b.settings.tagEncoding⟩)

theorem build_of_error {e : SchemaError}
    (h : b.schema.layout b.settings.tagEncoding root = .error e) (cache : ProgramCache) :
    b.build root cache = (.error e, cache) := by
  unfold build
  rw [h]

/-- A root that resolves is built with what the cache answers. -/
theorem build_of_layout {a : Layout} (h : b.schema.layout b.settings.tagEncoding root = .ok a)
    (cache : ProgramCache) :
    b.build root cache =
      let asked := cache.request ⟨a, b.settings.level, b.settings.tagEncoding⟩
      (match asked.1 with
        | some compiled => .ok (.ofLayout a compiled b.settings)
        | none => .panic, asked.2) := by
  unfold build
  rw [h]
  dsimp only
  split
  · next heq => rw [heq]
  · next heq => rw [heq]

/-- Building, step by step. -/
theorem build_eq_ok_iff {x : Serializer} : b.build root cache = (.ok x, cache') ↔
    ∃ a found, b.schema.layout b.settings.tagEncoding root = .ok a ∧
      cache.request ⟨a, b.settings.level, b.settings.tagEncoding⟩ = (some found, cache') ∧
      x = .ofLayout a found b.settings := by
  cases hlayout : b.schema.layout b.settings.tagEncoding root with
  | error e =>
    rw [build_of_error hlayout]
    exact ⟨fun h => (nomatch congrArg Prod.fst h), fun ⟨_, _, h, _⟩ => (nomatch h)⟩
  | ok a =>
    rw [build_of_layout hlayout]
    constructor
    · intro h
      obtain ⟨hresult, hafter⟩ := Prod.mk.inj h
      -- The request gives the programs, or the compilation has panicked.
      cases hanswer : (cache.request ⟨a, b.settings.level, b.settings.tagEncoding⟩).1 with
      | none =>
        rw [hanswer] at hresult
        cases hresult
      | some found =>
        rw [hanswer] at hresult
        exact ⟨a, found, rfl, Prod.ext hanswer hafter, (BuildResult.ok.inj hresult).symm⟩
    · rintro ⟨_, found, ⟨⟩, hrequest, rfl⟩
      simp only [hrequest]

end Builder

namespace Serializer

/-- **A serializer that has been built** from a schema, for a root type, with some settings. -/
structure BuiltFrom (s : Serializer) (schema : Schema) (root : TypeExpr) (settings : Settings) :
    Prop where
  declared : schema.Declared
  /-- The serializer is what some cache that has arisen gives. -/
  built : ∃ cache cache' : ProgramCache, cache.Reachable ∧
    Builder.build ⟨schema, settings⟩ root cache = (.ok s, cache')

/-- A serializer that has been built. -/
def Built (s : Serializer) : Prop := ∃ schema root settings, s.BuiltFrom schema root settings

/-- The program that a serializer uses at a version. -/
def programAt (s : Serializer) (tagEncoding : TagEncoding) (version : Version) : Program :=
  Program.ofLayout s.layout (s.layout.versionAt version) s.format tagEncoding

/-- Whatever resolves is built, if its sizes fit. -/
theorem builtFrom_of_layout {schema : Schema} {root : TypeExpr} {settings : Settings}
    {layout : Layout} (hs : schema.Declared)
    (h : schema.layout settings.tagEncoding root = .ok layout)
    (hfits : layout.SizesFit settings.level settings.tagEncoding) :
    (ofLayout layout (⟨0, 0⟩, .ofLayout layout settings.level settings.tagEncoding)
      settings).BuiltFrom schema root settings := by
  let cache : ProgramCache := { number := 0 }
  let key : ProgramKey := ⟨layout, settings.level, settings.tagEncoding⟩
  have hmade : key.compile = some (.ofLayout layout settings.level settings.tagEncoding) :=
    (ProgramFamily.compile_eq_some_iff (Schema.spelledFirst_of_layout h)).2 ⟨rfl, hfits⟩
  -- In a new cache the first place is free.
  have hrequest : (cache.request key).1 =
      some (⟨0, 0⟩, .ofLayout layout settings.level settings.tagEncoding) := by
    rw [ProgramCache.request_of_none rfl]
    exact ProgramCache.find?_eq_some_iff.2 ⟨0, by simp [cache, key, ProgramCache.attempt,
      CacheSlot.make], hmade, rfl⟩
  refine ⟨hs, cache, (cache.request key).2, .new 0, ?_⟩
  exact Builder.build_eq_ok_iff.2 ⟨layout, _, h, Prod.ext hrequest rfl, rfl⟩

namespace BuiltFrom

variable {s : Serializer} {schema : Schema} {root : TypeExpr} {settings : Settings}

/-- **What has been built**, whatever the cache held before. -/
theorem eq_ofLayout (h : s.BuiltFrom schema root settings) :
    schema.layout settings.tagEncoding root = .ok s.layout ∧
      ∃ handle, s = ofLayout s.layout
        (handle, .ofLayout s.layout settings.level settings.tagEncoding) settings := by
  obtain ⟨cache, cache', -, hbuild⟩ := h.built
  obtain ⟨layout, ⟨handle, programs⟩, hlayout, hrequest, rfl⟩ := Builder.build_eq_ok_iff.1 hbuild
  -- Whether the programs were found or made, they are the same.
  have hmade := ProgramCache.compile_of_request (congrArg Prod.fst hrequest)
  obtain rfl := ProgramFamily.eq_ofLayout_of_compile hmade
  exact ⟨hlayout, handle, rfl⟩

/-- The sizes in what has been built fit. -/
theorem sizesFit (h : s.BuiltFrom schema root settings) :
    s.layout.SizesFit settings.level settings.tagEncoding := by
  obtain ⟨cache, cache', -, hbuild⟩ := h.built
  obtain ⟨layout, found, hlayout, hrequest, rfl⟩ := Builder.build_eq_ok_iff.1 hbuild
  have hmade := ProgramCache.compile_of_request (congrArg Prod.fst hrequest)
  exact ((ProgramFamily.compile_eq_some_iff (Schema.spelledFirst_of_layout hlayout)).1 hmade).2

theorem level_eq (h : s.BuiltFrom schema root settings) : s.level = settings.level := by
  obtain ⟨-, handle, hs⟩ := h.eq_ofLayout
  rw [hs]
  rfl

theorem programs_eq (h : s.BuiltFrom schema root settings) :
    s.programs = .ofLayout s.layout settings.level settings.tagEncoding := by
  obtain ⟨-, handle, hs⟩ := h.eq_ofLayout
  rw [hs]
  rfl

theorem resolves (h : s.BuiltFrom schema root settings) :
    schema.Resolves settings.tagEncoding root s.layout :=
  Schema.resolves_of_layout h.eq_ofLayout.1

/-- **The program that is used at a version.** -/
theorem programFor_eq (h : s.BuiltFrom schema root settings) (version : Version) :
    s.programs.programFor version = s.programAt settings.tagEncoding version := by
  rw [h.programs_eq, ProgramFamily.programFor_ofLayout, programAt, format, h.level_eq]

theorem proper (h : s.BuiltFrom schema root settings) (version : Version) :
    (s.programAt settings.tagEncoding version).Proper :=
  h.resolves.proper h.declared _ _

end BuiltFrom

/-- The records that a serializer uses at a version are those of its layout. -/
theorem snapshot_programAt (s : Serializer) (tagEncoding : TagEncoding) (version : Version) :
    (s.programAt tagEncoding version).snapshot = s.layout.snapshot version :=
  s.layout.snapshot_versionAt version

end Serializer

/-! ### An example

A chain of records, each with a flag that may be missing, and since version 1 with a number. -/

namespace Chain

/-- The declaration of the record. -/
def decl : RecordDecl where
  name := "Chain"
  fields := [{ name := "next", type := .nullable (.record "Chain") },
    { name := "flag", type := .nullable (.scalar .bool) },
    { name := "size", type := .scalar .u16, added := 1, varLength := true }]

/-- A schema with nothing else in it. -/
def schema : Schema := { records := [decl] }

/-- The layout of a chain. -/
def layout : Layout :=
  .record "Chain" [⟨"next", 0, .nullable (.reference "Chain")⟩,
    ⟨"flag", 0, .nullable (.primitive (Primitive.ofKind .bool).ensureWrapped)⟩,
    ⟨"size", 1, .primitive ((Primitive.ofKind .u16).withVarLength true)⟩]

/-- The serializer of chains under some settings. -/
def serializer (settings : Settings) : Serializer :=
  .ofLayout layout (⟨0, 0⟩, .ofLayout layout settings.level settings.tagEncoding) settings

theorem wireFields_decl : decl.wireFields = decl.fields := List.mergeSort_of_pairwise (by decide)

theorem declared_schema : schema.Declared := by
  have hcheck : decl.check = .ok () := by
    unfold RecordDecl.check
    rw [wireFields_decl]
    rfl
  exact Schema.Declared.empty.append_record hcheck rfl

theorem layout_schema (tagEncoding : TagEncoding) :
    schema.layout tagEncoding (.record "Chain") = .ok layout := by
  refine Schema.layout_eq_ok_iff.2 ⟨by decide, ["Chain"], ?_⟩
  refine (Schema.resolveRecord_eq_ok_iff (by decide)).2 ⟨decl, 0, _, rfl, rfl, rfl, ?_⟩
  rw [wireFields_decl]
  rfl

/-- Chains can be serialized under all settings. -/
theorem builtFrom (settings : Settings) :
    (serializer settings).BuiltFrom schema (.record "Chain") settings :=
  Serializer.builtFrom_of_layout declared_schema (layout_schema _)
    (Layout.sizesFit_of_plain (by decide +kernel) _ _)

end Chain

end SchemaWire

import SchemaWire.Proofs.Schema.Simplification
import SchemaWire.Proofs.Serializer.Sharing
/-!
# Building from the type of what has been built

The type that can be read off the layout of a serializer is the simplest form of the type that it
was built from, and either of them may be handed to a builder: the outcome is the same with every
cache (`Builder.build_simplified`). In particular what a serializer says about its type can be used
to ask for it again, with the program that it has (`Builder.build_typeExpr`).
-/

namespace SchemaWire

namespace Builder

/-- A builder cannot tell a type from its simplest form. -/
theorem build_simplified (b : Builder) (root : TypeExpr) (cache : ProgramCache) :
    b.build root.simplified cache = b.build root cache := by
  rw [build, Schema.layout_simplified, build]

variable {b : Builder} {root : TypeExpr} {cache cache' : ProgramCache} {s : Serializer}

theorem typeExpr_of_build (h : b.build root cache = (.ok s, cache')) :
    s.layout.typeExpr = root.simplified := by
  obtain ⟨layout, found, hlayout, -, rfl⟩ := build_eq_ok_iff.1 h
  exact Schema.typeExpr_of_layout hlayout

/-- What is built with one cache is built with every other one. -/
theorem exists_build_of_build (h : b.build root cache = (.ok s, cache')) (other : ProgramCache) :
    ∃ x other', b.build root other = (.ok x, other') ∧ x.layout = s.layout := by
  have hmap : (b.build root other).1.map (·.layout) = .ok s.layout := by
    rw [map_layout_build, ← b.map_layout_build root cache, h]
    rfl
  obtain ⟨x, hx, hlayout⟩ := BuildResult.map_eq_ok_iff.1 hmap
  exact ⟨x, _, Prod.ext hx rfl, hlayout⟩

/-- A build that is repeated gives the same serializer, and leaves the cache as it is. -/
theorem build_again (h : b.build root cache = (.ok s, cache')) (keys : List ProgramKey) :
    b.build root (cache'.requestAll keys) = (.ok s, cache'.requestAll keys) := by
  obtain ⟨layout, found, hlayout, hrequest, rfl⟩ := build_eq_ok_iff.1 h
  have hagain := ProgramCache.request_again (congrArg Prod.fst hrequest) keys
  rw [hrequest] at hagain
  exact build_eq_ok_iff.2 ⟨layout, found, hlayout, hagain, rfl⟩

/-- **Resolution computes a normal form.** The layout that a root is built with has the type that
the root simplifies to: every nullable directly around a nullable collapsed, every scalar directly
under a nullable boxed, at every depth of lists and nullables, and nothing else changed. From this
type a builder gives the same outcome as from the root, with every cache; with the cache that the
serializer came from, whatever has been requested in between, this is a serializer that shares its
program, and the cache does not grow. -/
theorem build_typeExpr (h : b.build root cache = (.ok s, cache')) :
    (∀ t, root.SimplifiesTo t ↔ t = s.layout.typeExpr) ∧
    (∀ other, ∃ x other', b.build s.layout.typeExpr other = (.ok x, other') ∧
      b.build root other = (.ok x, other') ∧ x.layout = s.layout) ∧
    ∀ keys, ∃ x,
      b.build s.layout.typeExpr (cache'.requestAll keys) = (.ok x, cache'.requestAll keys) ∧
        x.layout = s.layout ∧ x.programs = s.programs ∧ s.sharesProgramWith x := by
  rw [typeExpr_of_build h]
  refine ⟨fun t => TypeExpr.simplifiesTo_iff, fun other => ?_, fun keys => ?_⟩
  · obtain ⟨x, other', hx, hlayout⟩ := exists_build_of_build h other
    exact ⟨x, other', (b.build_simplified root other).trans hx, hx, hlayout⟩
  · refine ⟨s, (b.build_simplified root _).trans (build_again h keys), rfl, rfl, ?_⟩
    exact decide_eq_true rfl

/-- Two nullables around a list of booleans that may be missing are one, and the booleans are boxed.
-/
theorem build_typeExpr_booleans : ∃ s cache',
    ({} : Builder).build (.nullable (.nullable (.list (.nullable (.scalar .bool)))))
      { number := 0 } = (.ok s, cache') ∧
    s.layout.typeExpr = .nullable (.list (.nullable (.wrapped .bool))) ∧
    ∃ x, ({} : Builder).build (.nullable (.list (.nullable (.wrapped .bool)))) cache' =
      (.ok x, cache') ∧ s.sharesProgramWith x := by
  have hbuilt : ∃ s cache',
      ({} : Builder).build (.nullable (.nullable (.list (.nullable (.scalar .bool)))))
        { number := 0 } = (.ok s, cache') ∧
      s.layout.typeExpr = .nullable (.list (.nullable (.wrapped .bool))) := ⟨_, _, rfl, rfl⟩
  obtain ⟨s, cache', h, htype⟩ := hbuilt
  obtain ⟨x, hx, -, -, hshares⟩ := (build_typeExpr h).2.2 []
  rw [htype] at hx
  exact ⟨s, cache', h, htype, x, hx, hshares⟩

end Builder

end SchemaWire

import Mathlib.Logic.Relation
import SchemaWire.Proofs.Schema.Resolution
/-!
# The simplest form of a type

A type can say the same in several ways: a nullable of a nullable admits nothing that one nullable
does not, and a scalar directly under a nullable is boxed whether the type says so or not.
`TypeExpr.Simplifies` is one step from such a type to a plainer one, anywhere under lists and
nullables. Every type comes to exactly one type that has no further step
(`TypeExpr.simplifiesTo_iff`), which is found by going through the type once
(`TypeExpr.simplified`).

Resolution cannot tell a type from its simplest form (`Schema.layout_simplified`), and the simplest
form is the type that can be read off a layout (`Schema.typeExpr_of_layout`).
-/

namespace SchemaWire

namespace TypeExpr

/-- **One step of simplification.** Records, groups and bare scalars outside of nullables are never
touched. -/
inductive Simplifies : TypeExpr → TypeExpr → Prop
  /-- A nullable directly around a nullable adds nothing. -/
  | collapse (t : TypeExpr) : Simplifies (.nullable (.nullable t)) (.nullable t)
  /-- A scalar directly under a nullable is boxed. -/
  | box (kind : ScalarKind) : Simplifies (.nullable (.scalar kind)) (.nullable (.wrapped kind))
  | nullable {t u : TypeExpr} (h : Simplifies t u) : Simplifies (.nullable t) (.nullable u)
  | list {t u : TypeExpr} (h : Simplifies t u) : Simplifies (.list t) (.list u)

/-- A type in which nothing is left to simplify. -/
def Simple (t : TypeExpr) : Prop := ∀ u, ¬t.Simplifies u

/-- **The simplest form of a type**: it is reached by steps of simplification, and it has none. -/
def SimplifiesTo (t u : TypeExpr) : Prop := Relation.ReflTransGen Simplifies t u ∧ u.Simple

/-- The simplest nullable around a simple type. -/
def asNullable : TypeExpr → TypeExpr
  | .nullable t => .nullable t
  | .scalar kind => .nullable (.wrapped kind)
  | t => .nullable t

/-- The simplest form of a type, from the inside out. -/
def simplified : TypeExpr → TypeExpr
  | .nullable t => t.simplified.asNullable
  | .list t => .list t.simplified
  | t => t

variable {t u : TypeExpr}

/-! ### The simplest form is unique -/

theorem asNullable_asNullable (t : TypeExpr) : t.asNullable.asNullable = t.asNullable := by
  cases t <;> rfl

theorem Simplifies.simplified_eq (h : t.Simplifies u) : t.simplified = u.simplified := by
  induction h with
  | collapse t => exact asNullable_asNullable t.simplified
  | box kind => rfl
  | nullable _ ih => exact congrArg asNullable ih
  | list _ ih => exact congrArg TypeExpr.list ih

theorem reflTransGen_asNullable (t : TypeExpr) :
    Relation.ReflTransGen Simplifies (.nullable t) t.asNullable := by
  cases t with
  | nullable t => exact .single (.collapse t)
  | scalar kind => exact .single (.box kind)
  | _ => exact .refl

theorem reflTransGen_simplified (t : TypeExpr) :
    Relation.ReflTransGen Simplifies t t.simplified := by
  induction t with
  | nullable t ih =>
    -- First what is inside, then the nullable around it.
    exact (ih.lift TypeExpr.nullable fun _ _ => .nullable).trans (reflTransGen_asNullable _)
  | list t ih => exact ih.lift TypeExpr.list fun _ _ => .list
  | _ => exact .refl

theorem Simple.asNullable (h : t.Simple) : t.asNullable.Simple := by
  -- What is optional already stays so; anything else gets one cover, which does not contract.
  cases t with
  | nullable t => exact h
  | scalar kind =>
    intro u hu
    cases hu with
    | nullable hu => cases hu
  | _ =>
    intro u hu
    cases hu with
    | nullable hu => exact h _ hu

theorem simple_simplified (t : TypeExpr) : t.simplified.Simple := by
  -- Parts first: what is simple inside leaves the outermost step only.
  induction t with
  | nullable t ih => exact ih.asNullable
  | list t ih =>
    intro u hu
    cases hu with
    | list hu => exact ih _ hu
  | _ =>
    intro u hu
    cases hu

theorem Simple.simplified_eq (h : t.Simple) : t.simplified = t := by
  rcases Relation.ReflTransGen.cases_head (reflTransGen_simplified t) with heq | ⟨u, hstep, -⟩
  · exact heq.symm
  · exact absurd hstep (h u)

theorem simplified_eq_of_reflTransGen (h : Relation.ReflTransGen Simplifies t u) :
    t.simplified = u.simplified := by
  induction h with
  | refl => rfl
  | tail _ hstep ih => exact ih.trans hstep.simplified_eq

/-- **Every type has exactly one simplest form**, in whatever order it is simplified. -/
theorem simplifiesTo_iff : t.SimplifiesTo u ↔ u = t.simplified := by
  constructor
  · rintro ⟨hsteps, hsimple⟩
    rw [simplified_eq_of_reflTransGen hsteps, hsimple.simplified_eq]
  · rintro rfl
    exact ⟨reflTransGen_simplified t, simple_simplified t⟩

end TypeExpr

/-! ### The type of a layout -/

namespace Layout

variable {a : Layout}

theorem typeExpr_asNullable (a : Layout) : a.asNullable.typeExpr = a.typeExpr.asNullable := by
  cases a with
  | primitive q =>
    obtain ⟨kind, wrapped, varLength, h⟩ := q
    cases wrapped <;> rfl
  | _ => rfl

theorem asNullable_asNullable (a : Layout) : a.asNullable.asNullable = a.asNullable := by
  cases a <;> rfl

/-- A record has the type of its name, spelled out or not. -/
theorem typeExpr_of_recordName? {name : TypeName} (h : a.recordName? = some name) :
    a.typeExpr = .record name := by
  cases a <;> cases h <;> rfl

end Layout

namespace Schema

variable {s : Schema} {tagEncoding : TagEncoding}

theorem Lays.typeExpr_eq {varLength : Bool} {t : TypeExpr} {a : Layout}
    (h : s.Lays tagEncoding varLength t a) : a.typeExpr = t.simplified := by
  induction h with
  | scalar _ | wrapped _ | text | subtypes _ _ _ => rfl
  | @nullable t a _ ih => rw [Layout.typeExpr_asNullable, ih, TypeExpr.simplified]
  | @list t a _ ih => rw [Layout.typeExpr, ih, TypeExpr.simplified]
  | record h => exact Layout.typeExpr_of_recordName? h

/-- **The type of a layout that resolution gives** is the simplest form of the type that has been
resolved. -/
theorem typeExpr_of_layout {root : TypeExpr} {a : Layout} (h : s.layout tagEncoding root = .ok a) :
    a.typeExpr = root.simplified :=
  (resolves_of_layout h).lays.typeExpr_eq

/-! ### Types with the same simplest form are resolved alike -/

section Resolving

variable {record : TypeName → String → Resolving Layout} {varLength : Bool} {referrer : String}

/-- The resolver puts a nullable around a layout in the way it is put around a type. -/
theorem resolveType_asNullable (t : TypeExpr) :
    s.resolveType tagEncoding record varLength referrer t.asNullable =
      s.resolveType tagEncoding record varLength referrer (.nullable t) := by
  -- A second cover adds nothing, and a scalar is wrapped either way.
  cases t with
  | nullable t =>
    simp only [TypeExpr.asNullable, resolveType, bind_assoc, pure_bind,
      Layout.asNullable_asNullable]
  | scalar kind =>
    simp only [TypeExpr.asNullable, resolveType, pure_bind]
    rfl
  | _ => rfl

/-- **The resolver takes a type for its simplest form**: the computations are the same, down to the
errors that they report and the records that they leave known. -/
theorem resolveType_simplified (t : TypeExpr) :
    s.resolveType tagEncoding record varLength referrer t.simplified =
      s.resolveType tagEncoding record varLength referrer t := by
  induction t with
  | nullable t ih => rw [TypeExpr.simplified, resolveType_asNullable, resolveType, ih, resolveType]
  | list t ih => rw [TypeExpr.simplified, resolveType, ih, resolveType]
  | _ => rfl

end Resolving

theorem layout_simplified (s : Schema) (tagEncoding : TagEncoding) (root : TypeExpr) :
    s.layout tagEncoding root.simplified = s.layout tagEncoding root := by
  rw [layout, resolveType_simplified, layout]

end Schema

end SchemaWire

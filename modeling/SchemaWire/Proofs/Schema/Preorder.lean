import SchemaWire.Proofs.Layout.Preorder
import SchemaWire.Proofs.Schema.Resolution
/-!
# The resolver works in pre-order

The resolver notes a record when it begins to spell it out, and goes through a type in the order in
which the layout is read afterwards. So the records that it knows at some point are those that the
nodes made so far have spelled out (`Resolving.Visits`): every record is spelled out once and first,
however the records of the schema refer to one another (`Schema.spelledFirst_of_layout`), and
the check for dangling references never finds one (`Schema.layout_eq_map`).
-/

namespace SchemaWire

namespace Resolving

open Layout (Passes)

variable {α β : Type} {m : Resolving α} {μ : α → List Layout} {ν : β → List Layout}

/-- The nodes of what a computation gives pass from the records known before it to those known
after it. -/
def Visits (m : Resolving α) (μ : α → List Layout) : Prop :=
  ∀ known x known', m known = .ok (x, known') → Passes known (μ x) known'

theorem Visits.pure {x : α} (h : ∀ known, Passes known (μ x) known) : Visits (Pure.pure x) μ := by
  intro known y known' hy
  cases hy
  exact h known

theorem Visits.throw (e : SchemaError) : Visits (throw e) μ := by
  intro known y known' hy
  cases hy

/-- A second computation goes on where the first one has stopped. -/
theorem Visits.bind {f : α → Resolving β} (hm : Visits m μ)
    (hf : ∀ x known y known', f x known = .ok (y, known') →
      ∃ bs, ν y = μ x ++ bs ∧ Passes known bs known') : Visits (m >>= f) ν := by
  intro known y known' hy
  obtain ⟨x, known₁, hx, hy⟩ := run_bind_eq_ok_iff.1 hy
  obtain ⟨bs, hbs, hpasses⟩ := hf x known₁ y known' hy
  rw [hbs]
  exact (hm known x known₁ hx).append hpasses

/-- Nodes may be put around what a computation gives. -/
theorem Visits.map (hm : Visits m μ) {g : α → β}
    (h : ∀ x known known', Passes known (μ x) known' → Passes known (ν (g x)) known') :
    Visits (do return g (← m)) ν := by
  intro known y known' hy
  obtain ⟨x, known₁, hx, hy⟩ := run_bind_eq_ok_iff.1 hy
  cases hy
  exact h x known known' (hm known x known' hx)

theorem visits_ofExcept (e : Except SchemaError α) : Visits (ofExcept e) fun _ => [] := by
  cases e with
  | ok x => exact Visits.pure .nil
  | error e => exact Visits.throw e

theorem Visits.mapM {f : α → Resolving β} {xs : List α} (h : ∀ x ∈ xs, Visits (f x) ν) :
    Visits (xs.mapM f) (·.flatMap ν) := by
  -- The nodes come one behind the other, as the layouts do.
  induction xs with
  | nil => exact Visits.pure .nil
  | cons x xs ih =>
    obtain ⟨hx, hxs⟩ := List.forall_mem_cons.1 h
    rw [List.mapM_cons]
    refine hx.bind fun y known zs known' hzs => ?_
    obtain ⟨ys, known₁, hys, hzs⟩ := run_bind_eq_ok_iff.1 hzs
    cases hzs
    exact ⟨ys.flatMap ν, List.flatMap_cons, ih hxs known ys known' hys⟩

end Resolving

open Resolving (Visits)

namespace Schema

variable {s : Schema} {tagEncoding : TagEncoding} {root : TypeExpr} {a : Layout}
  {known : List TypeName}

/-- Boxing a scalar and wrapping it up do not touch records. -/
theorem passes_asNullable {known known' : List TypeName} (h : Layout.Passes known a.nodes known') :
    Layout.Passes known a.asNullable.nodes known' := by
  cases a with
  | nullable inner => exact h
  | primitive q =>
    cases h with
    | other _ hnil => exact .other rfl (.other rfl hnil)
  | text | list _ | record _ _ | reference _ | subtypes _ _ => exact .other rfl h

theorem visits_resolveGroup {record : TypeName → String → Resolving Layout}
    (h : ∀ name referrer, (record name referrer).Visits Layout.nodes) (group : GroupName)
    (referrer : String) :
    (s.resolveGroup tagEncoding record group referrer).Visits Layout.nodes := by
  -- A group opens nothing itself; its members do, in their order.
  unfold resolveGroup
  cases s.group? group with
  | none => exact Visits.throw _
  | some d =>
    have hmember (t : UInt32 × TypeName) : Visits (do
        if tagEncoding.maxTag < t.1 then throw (.tagOverflow group t.1 tagEncoding)
        return Member.mk t.1 t.2 (← record t.2 (TypeExpr.subtypes group).describe))
        fun m => m.layout.nodes := by
      by_cases hmax : tagEncoding.maxTag < t.1
      · rw [if_pos hmax]
        exact Visits.throw (.tagOverflow group t.1 tagEncoding)
      · rw [if_neg hmax]
        exact (h t.2 _).map fun _ _ _ h => h
    refine (Resolving.visits_ofExcept _).bind fun tagged known b known' hb => ⟨b.nodes, rfl, ?_⟩
    refine (Visits.mapM fun t _ => hmember t).map (fun members k k' hk => ?_) known b known' hb
    refine .other rfl ?_
    rwa [Layout.descendants, Layout.memberNodes_eq_flatMap]

theorem visits_resolveType {record : TypeName → String → Resolving Layout}
    (h : ∀ name referrer, (record name referrer).Visits Layout.nodes) (varLength : Bool)
    (referrer : String) (t : TypeExpr) :
    (s.resolveType tagEncoding record varLength referrer t).Visits Layout.nodes := by
  induction t with
  | scalar kind | wrapped kind | text => exact Visits.pure fun known => .other rfl (.nil known)
  | record name => exact h name referrer
  | subtypes group => exact visits_resolveGroup h group referrer
  | nullable t ih => exact ih.map fun a _ _ ha => passes_asNullable ha
  | list t ih => exact ih.map fun a _ _ ha => .other rfl ha

/-- **Records are spelled out at their first mention**, by induction on how many can still be
spelled out inside one another. -/
theorem visits_resolveRecord (fuel : Nat) (name : TypeName) (referrer : String) :
    (s.resolveRecord tagEncoding fuel name referrer).Visits Layout.nodes := by
  induction fuel using Nat.strongRecOn generalizing name referrer with
  | ind fuel ih =>
    intro known a known' ha
    by_cases hknown : name ∈ known
    · rw [resolveRecord_of_mem hknown] at ha
      cases ha
      exact .reference hknown (.nil known)
    · obtain ⟨d, rest, fields, hd, rfl, rfl, hfields⟩ := (resolveRecord_eq_ok_iff hknown).1 ha
      -- The record is known from its own fields on.
      refine .record hknown ?_
      rw [Layout.descendants, Layout.fieldNodes_eq_flatMap]
      refine Visits.mapM (fun f _ => ?_) _ _ _ hfields
      exact (visits_resolveType (ih rest (Nat.lt_succ_self rest)) _ _ _).map fun _ _ _ h => h

/-- What the resolver makes of a type passes from nothing to the records that it knows at the end.
-/
theorem passes_of_resolveType {fuel : Nat} {varLength : Bool} {referrer : String}
    (h : s.resolveType tagEncoding (s.resolveRecord tagEncoding fuel) varLength referrer root [] =
      .ok (a, known)) : Layout.Passes [] a.nodes known :=
  visits_resolveType (visits_resolveRecord fuel) _ _ _ _ _ _ h

/-- **What the resolver gives is the layout**: no reference in it dangles. -/
theorem layout_eq_map (s : Schema) (tagEncoding : TagEncoding) (root : TypeExpr) :
    s.layout tagEncoding root = (s.resolveType tagEncoding
      (s.resolveRecord tagEncoding s.records.length) false "root" root []).map (·.1) := by
  unfold layout
  cases h : s.resolveType tagEncoding (s.resolveRecord tagEncoding s.records.length) false "root"
    root [] with
  | error e => rfl
  | ok r =>
    -- The resolver spells out before it refers, so the check that follows finds nothing.
    have hcheck : checkReferences r.1 = .ok () := by
      unfold checkReferences Layout.dangling?
      rw [(passes_of_resolveType h).firstDangling?_eq_none]
    change (checkReferences r.1 >>= fun _ => .ok r.1) = _
    rw [hcheck]
    rfl

/-- Every record in a layout is spelled out once and first. -/
theorem spelledFirst_of_layout (h : s.layout tagEncoding root = .ok a) : a.SpelledFirst := by
  obtain ⟨-, known, ha⟩ := layout_eq_ok_iff.1 h
  exact (passes_of_resolveType ha).spelledFirst

end Schema

end SchemaWire

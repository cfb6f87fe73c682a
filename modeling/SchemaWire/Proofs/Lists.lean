import Mathlib.Data.List.Forall2
/-!
# Lists whose members correspond

Declarations, layouts and what is read or written for them are lists that correspond member by
member. These are the consequences that the development draws from such a correspondence, together
with looking up under other keys (`lookup_map_of_injective`), a measure for searches that note the
names they have been to (`length_filter_not_mem_cons_lt`), and what a strict order says of a list.
-/

namespace SchemaWire

variable {α β γ : Type}

theorem exists_mem_of_forall₂_right {R : α → β → Prop} {xs : List α} {ys : List β}
    (h : List.Forall₂ R xs ys) {y : β} (hy : y ∈ ys) : ∃ x ∈ xs, R x y := by
  induction h with
  | nil => cases hy
  | cons hx _ ih =>
    rcases List.mem_cons.1 hy with rfl | hy
    · exact ⟨_, List.mem_cons_self, hx⟩
    · obtain ⟨x, hxs, hR⟩ := ih hy
      exact ⟨x, List.mem_cons_of_mem _ hxs, hR⟩

theorem exists_mem_of_forall₂_left {R : α → β → Prop} {xs : List α} {ys : List β}
    (h : List.Forall₂ R xs ys) {x : α} (hx : x ∈ xs) : ∃ y ∈ ys, R x y := by
  obtain ⟨y, hy, hR⟩ := exists_mem_of_forall₂_right h.flip hx
  exact ⟨y, hy, hR⟩

/-- Members that correspond are members. -/
theorem forall₂_and_mem {R : α → β → Prop} {xs : List α} {ys : List β} (h : List.Forall₂ R xs ys) :
    List.Forall₂ (fun x y => x ∈ xs ∧ y ∈ ys ∧ R x y) xs ys := by
  have hright : List.Forall₂ (fun y x => y ∈ ys ∧ R x y) ys xs :=
    (List.forall₂_and_left _ _).2 ⟨fun y hy => hy, h.flip⟩
  exact (List.forall₂_and_left _ _).2 ⟨fun x hx => hx, hright.flip⟩

theorem map_eq_map_of_forall₂ {f : α → γ} {g : β → γ} {xs : List α} {ys : List β}
    (h : List.Forall₂ (fun x y => g y = f x) xs ys) : ys.map g = xs.map f := by
  induction h with
  | nil => rfl
  | cons hx _ ih => rw [List.map_cons, List.map_cons, hx, ih]

theorem flatMap_eq_flatMap_of_forall₂ {f : α → List γ} {g : β → List γ} {xs : List α}
    {ys : List β} (h : List.Forall₂ (fun x y => g y = f x) xs ys) :
    ys.flatMap g = xs.flatMap f := by
  rw [List.flatMap_def, List.flatMap_def, map_eq_map_of_forall₂ h]

/-! ### Optional values that correspond -/

theorem optionRel_refl {R : α → α → Prop} (h : ∀ x, R x x) (o : Option α) : Option.Rel R o o := by
  cases o with
  | none => exact .none
  | some x => exact .some (h x)

theorem optionRel_none_left {R : α → β → Prop} {o : Option β} (h : Option.Rel R none o) :
    o = none := by
  cases h
  rfl

theorem optionRel_some_left {R : α → β → Prop} {x : α} {o : Option β}
    (h : Option.Rel R (some x) o) : ∃ y, o = some y ∧ R x y := by
  cases h with
  | some hxy => exact ⟨_, rfl, hxy⟩

/-! ### Keys -/

/-- What a list has under a key it has under another one, once its keys have been replaced by those,
no two of them by the same. -/
theorem lookup_map_of_injective {δ : Type} [DecidableEq α] [DecidableEq γ] {key : α → γ}
    (h : Function.Injective key) (g : α → β → δ) (xs : List (α × β)) (k : α) :
    (xs.map fun x => (key x.1, g x.1 x.2)).lookup (key k) = (xs.lookup k).map (g k) := by
  induction xs with
  | nil => rfl
  | cons x xs ih =>
    obtain ⟨j, y⟩ := x
    rw [List.map_cons]
    -- Keys that differ stay different, so the search passes by the same entries.
    by_cases hj : k = j
    · subst hj
      rw [List.lookup_cons_self, List.lookup_cons_self, Option.map_some]
    · have hkey : (key k == key j) = false := beq_false_of_ne fun e => hj (h e)
      rw [List.lookup_cons, List.lookup_cons, hkey, beq_false_of_ne hj]
      exact ih

/-- One more name that is known leaves fewer of them unknown. -/
theorem length_filter_not_mem_cons_lt [DecidableEq α] {x : α} {xs known : List α} (hx : x ∈ xs)
    (h : x ∉ known) :
    (xs.filter (· ∉ x :: known)).length < (xs.filter (· ∉ known)).length := by
  have hstep : xs.filter (· ∉ x :: known) = (xs.filter (· ∉ known)).filter (· ≠ x) := by
    simp only [List.filter_filter, List.mem_cons, not_or, Bool.decide_and]
  rw [hstep, List.length_filter_lt_length_iff_exists]
  exact ⟨x, List.mem_filter.2 ⟨hx, by simpa using h⟩, by simp⟩

/-- Along a list in strict order, a relation holds of all pairs exactly if it holds of those that
the order relates. -/
theorem pairwise_iff_of_pairwise {R lt : α → α → Prop} (hasymm : ∀ x y, lt x y → ¬lt y x)
    {xs : List α} (h : xs.Pairwise lt) :
    xs.Pairwise R ↔ ∀ x ∈ xs, ∀ y ∈ xs, lt x y → R x y := by
  refine ⟨fun hR => ?_, fun hR => h.imp_of_mem fun hx hy => hR _ hx _ hy⟩
  induction xs with
  | nil => exact nofun
  | cons z xs ih =>
    obtain ⟨hz, hrest⟩ := List.pairwise_cons.1 h
    obtain ⟨hRz, hRrest⟩ := List.pairwise_cons.1 hR
    intro x hx y hy hlt
    -- The order of the list decides which of the two comes first.
    obtain rfl | hx' := List.mem_cons.1 hx <;> obtain rfl | hy' := List.mem_cons.1 hy
    · exact absurd hlt (hasymm _ _ hlt)
    · exact hRz y hy'
    · exact absurd (hz x hx') (hasymm _ _ hlt)
    · exact ih hrest hRrest x hx' y hy' hlt

/-- Lists that correspond to the same list correspond to each other. -/
theorem forall₂_of_common {δ : Type} {R : α → β → Prop} {S : α → γ → Prop} {T : γ → δ → Prop}
    {U : β → δ → Prop} (h : ∀ x y z w, R x y → S x z → T z w → U y w) {xs : List α} {ys : List β}
    {zs : List γ} {ws : List δ} (hR : List.Forall₂ R xs ys) (hS : List.Forall₂ S xs zs)
    (hT : List.Forall₂ T zs ws) : List.Forall₂ U ys ws := by
  -- The first lists have their entries in common, so the others go along with them.
  induction hR generalizing zs ws with
  | nil =>
    cases hS
    cases hT
    exact .nil
  | cons hxy _ ih =>
    cases hS with
    | cons hxz hS =>
      cases hT with
      | cons hzw hT => exact .cons (h _ _ _ _ hxy hxz hzw) (ih hS hT)

end SchemaWire

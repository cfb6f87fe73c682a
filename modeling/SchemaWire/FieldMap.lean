/-!
# Field maps

The fields of a record value are kept as an association list in ascending order of their names
(`FieldMap.Sorted`), the order in which a record is listed and in which its fields are examined.

* `insert` puts a field at its place and overwrites one of the same name; it keeps the order
  (`Sorted.insert`), answers its own name with the new value (`find?_insert_self`) and leaves
  every other name alone (`find?_insert_of_ne`).
* `erase` removes a name and nothing else (`find?_erase_self`, `find?_erase_of_ne`).
* In sorted maps the look-up says everything: `Sorted.ext` makes two of them equal as soon as
  they answer every name alike.
-/

namespace SchemaWire

/-- Values by name, in ascending order of the names. -/
abbrev FieldMap (α : Type) := List (String × α)

namespace FieldMap

variable {α : Type}

/-- The names of a map are strictly ascending, so each occurs once. -/
def Sorted (m : FieldMap α) : Prop := m.Pairwise (·.1 < ·.1)

instance (m : FieldMap α) : Decidable m.Sorted := inferInstanceAs (Decidable (List.Pairwise _ _))

def find? (m : FieldMap α) (name : String) : Option α :=
  match m with
  | [] => none
  | (k, x) :: m => if k = name then some x else find? m name

/-- Stores a value under a name, in place of the one that was there. -/
def insert (m : FieldMap α) (name : String) (x : α) : FieldMap α :=
  match m with
  | [] => [(name, x)]
  | (k, y) :: m =>
    if name < k then (name, x) :: (k, y) :: m
    else if name = k then (name, x) :: m
    else (k, y) :: insert m name x

def erase (m : FieldMap α) (name : String) : FieldMap α := m.filter (·.1 ≠ name)

/-- The map that arises by storing one field after another, later ones overwriting. -/
def ofList (fields : List (String × α)) : FieldMap α :=
  fields.foldl (fun m f => m.insert f.1 f.2) []

/-! ### Looking up -/

@[simp] theorem find?_nil (name : String) : find? ([] : FieldMap α) name = none := rfl

@[simp] theorem find?_cons_self (m : FieldMap α) (name : String) (x : α) :
    find? ((name, x) :: m) name = some x := by simp [find?]

theorem find?_cons_of_ne {m : FieldMap α} {k name : String} {x : α} (h : k ≠ name) :
    find? ((k, x) :: m) name = find? m name := by simp [find?, h]

theorem mem_of_find?_eq_some {m : FieldMap α} {name : String} {x : α}
    (h : m.find? name = some x) : (name, x) ∈ m := by
  induction m with
  | nil => simp at h
  | cons f m ih =>
    obtain ⟨k, y⟩ := f
    -- A first entry of this name is the one that is found; behind any other the search goes on.
    by_cases hk : k = name
    · subst hk
      simp at h
      simp [h]
    · rw [find?_cons_of_ne hk] at h
      exact List.mem_cons_of_mem _ (ih h)

theorem find?_eq_none_iff {m : FieldMap α} {name : String} :
    m.find? name = none ↔ ∀ f ∈ m, f.1 ≠ name := by
  induction m with
  | nil => simp
  | cons f m ih =>
    obtain ⟨k, y⟩ := f
    -- Same split as for the entry that is found.
    by_cases hk : k = name
    · subst hk
      simp
    · rw [find?_cons_of_ne hk, ih]
      simp [hk]

/-! ### Storing -/

@[simp] theorem find?_insert_self (m : FieldMap α) (name : String) (x : α) :
    (m.insert name x).find? name = some x := by
  induction m with
  | nil => simp [insert]
  | cons f m ih =>
    obtain ⟨k, y⟩ := f
    simp only [insert]
    -- The new entry stands before the first greater name, replaces an equal one, or lies further
    -- on.
    split
    · simp
    · split
      · simp
      · next hk => rw [find?_cons_of_ne (Ne.symm hk), ih]

theorem find?_insert_of_ne {m : FieldMap α} {name other : String} {x : α} (h : name ≠ other) :
    (m.insert name x).find? other = m.find? other := by
  induction m with
  | nil => simp [insert, find?_cons_of_ne h]
  | cons f m ih =>
    obtain ⟨k, y⟩ := f
    -- Wherever the new entry ends up, a search for another name passes it by.
    simp only [insert]
    split
    · exact find?_cons_of_ne h
    · split
      · next hk =>
        subst hk
        rw [find?_cons_of_ne h, find?_cons_of_ne h]
      · simp only [find?, ih]

theorem mem_insert {m : FieldMap α} {name : String} {x : α} {f : String × α}
    (h : f ∈ m.insert name x) : f = (name, x) ∨ f ∈ m := by
  induction m with
  | nil => simpa [insert] using h
  | cons g m ih =>
    obtain ⟨k, y⟩ := g
    simp only [insert] at h
    -- As in `find?_insert_self`, by the three places the new entry can take.
    split at h
    · simpa using h
    · split at h
      · rcases List.mem_cons.1 h with h | h
        · exact .inl h
        · exact .inr (List.mem_cons_of_mem _ h)
      · rcases List.mem_cons.1 h with h | h
        · exact .inr (h ▸ List.mem_cons_self)
        · exact (ih h).imp_right (List.mem_cons_of_mem _)

theorem Sorted.insert {m : FieldMap α} (h : m.Sorted) (name : String) (x : α) :
    (m.insert name x).Sorted := by
  induction m with
  | nil => exact List.pairwise_singleton _ _
  | cons g m ih =>
    obtain ⟨k, y⟩ := g
    -- Sorted means that the first name is smaller than all behind it.
    have hk : ∀ f ∈ m, k < f.1 := fun _ hf => List.rel_of_pairwise_cons h hf
    simp only [FieldMap.insert]
    split
    · next hlt =>
      refine List.Pairwise.cons (fun f hf => ?_) h
      rcases List.mem_cons.1 hf with rfl | hf
      · exact hlt
      · exact String.lt_trans hlt (hk f hf)
    · split
      · next heq =>
        subst heq
        exact List.Pairwise.cons hk h.of_cons
      · next hlt hne =>
        -- Neither smaller nor equal to the first name: it lies behind it.
        have hgt : k < name := by
          rcases Std.Trichotomous.rel_or_eq_or_rel_swap (r := (· < · : String → String → Prop))
            (a := name) (b := k) with h | h | h
          · exact absurd h hlt
          · exact absurd h hne
          · exact h
        refine List.Pairwise.cons (fun f hf => ?_) (ih h.of_cons)
        rcases mem_insert hf with rfl | hf
        · exact hgt
        · exact hk f hf

theorem sorted_ofList (fields : List (String × α)) : (ofList fields).Sorted := by
  suffices h : ∀ (m : FieldMap α), m.Sorted →
      (fields.foldl (fun m f => FieldMap.insert m f.1 f.2) m).Sorted from
    h [] List.Pairwise.nil
  induction fields with
  | nil => exact fun m h => h
  | cons f fields ih => exact fun m h => ih _ (h.insert f.1 f.2)

/-- Nothing is stored but the fields that are given. -/
theorem mem_of_mem_ofList {fields : List (String × α)} {f : String × α} (h : f ∈ ofList fields) :
    f ∈ fields := by
  -- The fold goes on with the map built so far, so the statement is about any map that it starts
  -- from.
  suffices hfold : ∀ m : FieldMap α,
      f ∈ fields.foldl (fun m f => FieldMap.insert m f.1 f.2) m → f ∈ fields ∨ f ∈ m from
    (hfold [] h).resolve_right List.not_mem_nil
  clear h
  induction fields with
  | nil => exact fun m h => .inr h
  | cons g fields ih =>
    intro m h
    rcases ih _ h with h | h
    · exact .inl (List.mem_cons_of_mem _ h)
    · rcases mem_insert h with rfl | h
      · exact .inl List.mem_cons_self
      · exact .inr h

theorem find?_foldl_insert_of_ne {fields : List (String × α)} {name : String}
    (h : ∀ f ∈ fields, f.1 ≠ name) (m : FieldMap α) :
    (fields.foldl (fun m f => m.insert f.1 f.2) m).find? name = m.find? name := by
  induction fields generalizing m with
  | nil => rfl
  | cons f fields ih =>
    obtain ⟨hf, hfields⟩ := List.forall_mem_cons.1 h
    rw [List.foldl_cons, ih hfields, find?_insert_of_ne hf]

theorem find?_foldl_insert_of_mem {fields : List (String × α)} (h : (fields.map (·.1)).Nodup)
    {name : String} {x : α} (hx : (name, x) ∈ fields) (m : FieldMap α) :
    (fields.foldl (fun m f => m.insert f.1 f.2) m).find? name = some x := by
  -- The names are distinct, so nothing inserted later replaces the entry.
  induction fields generalizing m with
  | nil => cases hx
  | cons f fields ih =>
    rw [List.map_cons, List.nodup_cons] at h
    rw [List.foldl_cons]
    rcases List.mem_cons.1 hx with rfl | hx
    · rw [find?_foldl_insert_of_ne (fun g hg e => h.1 (List.mem_map.2 ⟨g, hg, e⟩)),
        find?_insert_self]
    · exact ih h.2 hx _

/-- Among fields with different names none overwrites another. -/
theorem find?_ofList_eq_some_iff {fields : List (String × α)} (h : (fields.map (·.1)).Nodup)
    {name : String} {x : α} : (ofList fields).find? name = some x ↔ (name, x) ∈ fields := by
  refine ⟨fun hx => ?_, fun hx => find?_foldl_insert_of_mem h hx []⟩
  -- A name that was never inserted is not found.
  by_cases hname : ∃ f ∈ fields, f.1 = name
  · obtain ⟨⟨_, y⟩, hf, rfl⟩ := hname
    rw [ofList, find?_foldl_insert_of_mem h hf] at hx
    exact Option.some.inj hx ▸ hf
  · rw [ofList, find?_foldl_insert_of_ne (fun f hf e => hname ⟨f, hf, e⟩)] at hx
    cases hx

/-! ### Removing -/

@[simp] theorem find?_erase_self (m : FieldMap α) (name : String) :
    (m.erase name).find? name = none := by
  rw [find?_eq_none_iff]
  intro f hf
  simpa using (List.mem_filter.1 hf).2

/-- Fields that are kept are found as before. -/
theorem find?_filter {m : FieldMap α} {name : String} {keep : String × α → Bool}
    (h : ∀ x, keep (name, x) = true) : find? (m.filter keep) name = m.find? name := by
  induction m with
  | nil => rfl
  | cons f m ih =>
    obtain ⟨k, y⟩ := f
    -- The filter keeps every entry of this name, and what it drops could not have been found.
    by_cases hk : k = name
    · subst hk
      rw [List.filter_cons_of_pos (h y), find?_cons_self, find?_cons_self]
    · rw [find?_cons_of_ne hk, ← ih, List.filter_cons]
      split
      · rw [find?_cons_of_ne hk]
      · rfl

/-- Where values are changed and names are not, a value is found changed. -/
theorem find?_map {β : Type} (m : FieldMap α) (f : String → α → β) (name : String) :
    find? (m.map fun x => (x.1, f x.1 x.2)) name = (m.find? name).map (f name) := by
  induction m with
  | nil => rfl
  | cons x m ih =>
    obtain ⟨k, y⟩ := x
    rw [List.map_cons]
    by_cases hk : k = name
    · subst hk
      rw [find?_cons_self, find?_cons_self, Option.map_some]
    · rw [find?_cons_of_ne hk, find?_cons_of_ne hk, ih]

theorem find?_erase_of_ne {m : FieldMap α} {name other : String} (h : name ≠ other) :
    (m.erase name).find? other = m.find? other :=
  find?_filter fun x => by simpa using h.symm

theorem Sorted.erase {m : FieldMap α} (h : m.Sorted) (name : String) : (m.erase name).Sorted :=
  List.Pairwise.filter _ h

/-! ### The look-up says everything -/

theorem Sorted.find?_eq_some_iff {m : FieldMap α} (h : m.Sorted) {name : String} {x : α} :
    m.find? name = some x ↔ (name, x) ∈ m := by
  -- The first entry of a name is its only one, since the names grow strictly.
  refine ⟨mem_of_find?_eq_some, fun hm => ?_⟩
  induction m with
  | nil => simp at hm
  | cons f m ih =>
    obtain ⟨k, y⟩ := f
    rcases List.mem_cons.1 hm with heq | hm
    · cases heq
      exact find?_cons_self _ _ _
    · have : k < name := List.rel_of_pairwise_cons h hm
      have hk : k ≠ name := by
        rintro rfl
        exact String.lt_irrefl _ this
      rw [find?_cons_of_ne hk, ih h.of_cons hm]

/-- Sorted maps that answer every name alike are equal. -/
theorem Sorted.ext {m m' : FieldMap α} (h : m.Sorted) (h' : m'.Sorted)
    (heq : ∀ name, m.find? name = m'.find? name) : m = m' := by
  -- By induction on the first map, the second one following: each first entry lies in the other
  -- map, and were the names different, each would be smaller than the other.
  induction m generalizing m' with
  | nil =>
    cases m' with
    | nil => rfl
    | cons f m' =>
      obtain ⟨k, y⟩ := f
      simpa using heq k
  | cons f m ih =>
    obtain ⟨k, y⟩ := f
    cases m' with
    | nil => simpa using heq k
    | cons g m' =>
      obtain ⟨k', y'⟩ := g
      have hm : (k, y) ∈ (k', y') :: m' := by
        rw [← h'.find?_eq_some_iff, ← heq]
        exact find?_cons_self _ _ _
      have hm' : (k', y') ∈ (k, y) :: m := by
        rw [← h.find?_eq_some_iff, heq]
        exact find?_cons_self _ _ _
      have hkk : k = k' ∧ y = y' := by
        rcases List.mem_cons.1 hm with e | hm
        · exact ⟨congrArg Prod.fst e, congrArg Prod.snd e⟩
        · rcases List.mem_cons.1 hm' with e | hm'
          · exact ⟨(congrArg Prod.fst e).symm, (congrArg Prod.snd e).symm⟩
          · exact absurd (String.lt_trans (List.rel_of_pairwise_cons h' hm)
              (List.rel_of_pairwise_cons h hm')) (String.lt_irrefl _)
      obtain ⟨rfl, rfl⟩ := hkk
      congr 1
      refine ih h.of_cons h'.of_cons fun name => ?_
      -- The name that both maps begin with occurs in neither rest.
      by_cases hn : k = name
      · subst hn
        have h1 : FieldMap.find? m k = none := find?_eq_none_iff.2 fun f hf e =>
          String.lt_irrefl _ (e ▸ List.rel_of_pairwise_cons h hf)
        have h2 : FieldMap.find? m' k = none := find?_eq_none_iff.2 fun f hf e =>
          String.lt_irrefl _ (e ▸ List.rel_of_pairwise_cons h' hf)
        rw [h1, h2]
      · have := heq name
        rwa [find?_cons_of_ne hn, find?_cons_of_ne hn] at this

end FieldMap

end SchemaWire

import SchemaWire.Proofs.Layout.Snapshot
/-!
# How deeply records are nested

Records count as nested if one contains the other, through lists or directly; the members of a list
and the fields of a record stand side by side. `Value.nestingAlong` is the greatest number of
records nested in a value along fields that are followed.

* `Value.nesting` follows all fields;
* `Snapshot.nesting` follows those that are on the wire at a version.

All that is needed of either is when it stays within a bound: a list if every member does
(`Value.nestingAlong_list_le_iff`), and a record if what it holds stays within one less
(`Value.nestingAlong_record_le_succ_iff`).
-/

namespace SchemaWire

namespace Value

mutual

/-- The greatest number of records nested in one another in a value, on the way along the fields
that are followed. -/
def nestingAlong (follows : TypeName → String → Bool) : Value → Nat
  | .list vs => nestingMembers follows vs
  | .record type fields => 1 + nestingFields follows (follows type) fields
  | .null | .scalar _ | .wrapped _ | .text _ => 0

/-- The greatest number of records nested in some member. -/
def nestingMembers (follows : TypeName → String → Bool) : List Value → Nat
  | [] => 0
  | v :: vs => max (nestingAlong follows v) (nestingMembers follows vs)

/-- The greatest number of records nested in some field that is wanted. Of several fields with one
name the first counts. -/
def nestingFields (follows : TypeName → String → Bool) (wanted : String → Bool) :
    List (String × Value) → Nat
  | [] => 0
  | (k, v) :: fields =>
    max (if wanted k then nestingAlong follows v else 0)
      (nestingFields follows (fun name => wanted name && name ≠ k) fields)

end

/-- The greatest number of records nested in one another in a value. -/
def nesting (v : Value) : Nat := v.nestingAlong fun _ _ => true

variable {follows : TypeName → String → Bool} {n : Nat}

theorem nestingAlong_list_le_iff {vs : List Value} :
    (list vs).nestingAlong follows ≤ n ↔ ∀ v ∈ vs, v.nestingAlong follows ≤ n := by
  rw [nestingAlong]
  induction vs with
  | nil => simp [nestingMembers]
  | cons v vs ih => rw [nestingMembers, Nat.max_le, ih, List.forall_mem_cons]

theorem nestingFields_le_iff {wanted : String → Bool} {fields : FieldMap Value} :
    nestingFields follows wanted fields ≤ n ↔ ∀ name, wanted name = true →
      ∀ v, fields.find? name = some v → v.nestingAlong follows ≤ n := by
  induction fields generalizing wanted with
  | nil => simp [nestingFields]
  | cons x fields ih =>
    obtain ⟨k, v⟩ := x
    rw [nestingFields, Nat.max_le, ih]
    constructor
    -- The first entry hides later ones of its name, so only the wanted names other than it are left
    -- for the rest.
    · rintro ⟨hv, hfields⟩ name hname y hy
      by_cases hk : k = name
      · subst hk
        rw [FieldMap.find?_cons_self] at hy
        cases hy
        simpa only [hname, if_true] using hv
      · rw [FieldMap.find?_cons_of_ne hk] at hy
        exact hfields name (by simpa [hname] using Ne.symm hk) y hy
    · intro h
      refine ⟨?_, fun name hname y hy => ?_⟩
      · split
        · next hk => exact h k hk v (FieldMap.find?_cons_self _ _ _)
        · exact Nat.zero_le n
      · obtain ⟨hname, hk⟩ : wanted name = true ∧ name ≠ k := by simpa using hname
        exact h name hname y (by rw [FieldMap.find?_cons_of_ne (Ne.symm hk), hy])

/-- A record is one more than what it holds. -/
theorem nestingAlong_record_le_succ_iff {type : TypeName} {fields : FieldMap Value} :
    (record type fields).nestingAlong follows ≤ n + 1 ↔ ∀ name, follows type name = true →
      ∀ v, fields.find? name = some v → v.nestingAlong follows ≤ n := by
  rw [← nestingFields_le_iff, nestingAlong, Nat.add_comm, Nat.add_le_add_iff_right]

theorem nestingAlong_record_pos {type : TypeName} {fields : FieldMap Value} :
    0 < (record type fields).nestingAlong follows := by
  rw [nestingAlong]
  omega

/-- A record whose fields hold no more than `n` records nested in one another. -/
theorem nesting_record_le_succ {type : TypeName} {fields : FieldMap Value}
    (h : ∀ x ∈ fields, x.2.nesting ≤ n) : (record type fields).nesting ≤ n + 1 :=
  nestingAlong_record_le_succ_iff.2 fun _ _ _ hv => h _ (FieldMap.mem_of_find?_eq_some hv)

end Value

/-- The greatest number of records nested in one another in a value, along the fields that are on
the wire. -/
def Snapshot.nesting (s : Snapshot) (v : Value) : Nat :=
  v.nestingAlong fun type name => (s.present type).any (·.name = name)

namespace Snapshot

variable {s : Snapshot} {n : Nat}

theorem nesting_list_le_iff {vs : List Value} :
    s.nesting (.list vs) ≤ n ↔ ∀ v ∈ vs, s.nesting v ≤ n :=
  Value.nestingAlong_list_le_iff

theorem nesting_record_le_succ_iff {type : TypeName} {fields : FieldMap Value} :
    s.nesting (.record type fields) ≤ n + 1 ↔ ∀ f ∈ s.present type,
      ∀ v, fields.find? f.name = some v → s.nesting v ≤ n := by
  unfold nesting
  rw [Value.nestingAlong_record_le_succ_iff]
  constructor
  -- What is followed are the names of the fields on the wire.
  · intro h f hf
    exact h f.name (List.any_eq_true.2 ⟨f, hf, decide_eq_true rfl⟩)
  · intro h name hname
    obtain ⟨f, hf, hfname⟩ := List.any_eq_true.1 hname
    exact of_decide_eq_true hfname ▸ h f hf

end Snapshot

end SchemaWire

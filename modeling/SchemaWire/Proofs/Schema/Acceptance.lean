import Mathlib.Data.List.Pairwise
import SchemaWire.Proofs.Lists
import SchemaWire.Proofs.Schema.Declaration
/-!
# Which declarations are accepted

The check of a declaration is a chain of tests, each with its own message. What it comes to is said
here without the tests: a declaration is **consistent** (`RecordDecl.Consistent`,
`GroupDecl.Consistent`), and the check passes exactly then (`RecordDecl.check_eq_ok_iff`,
`GroupDecl.check_eq_ok_iff`).

One of the tests runs along the fields in wire order, that is on a sorted list. The condition speaks
of the keys instead: a field `RecordDecl.Precedes` another one if its key is smaller, or if there
are no keys and it is declared first. Where the keys do not contradict each other this is the wire
order (`RecordDecl.pairwise_wireFields_iff`).
-/

namespace SchemaWire

/-! ### Records -/

namespace FieldDecl

variable {f g h : FieldDecl} {i j : UInt32}

theorem keyLe_of_none (hf : f.order = none) : keyLe f g := by
  unfold keyLe
  rw [hf]

theorem keyLe_iff (hf : f.order = some i) (hg : g.order = some j) : keyLe f g ↔ i ≤ j := by
  unfold keyLe
  rw [hf, hg]
  exact decide_eq_true_iff

/-- A field has a smaller key than another one. -/
def KeyLt (f g : FieldDecl) : Prop := ∃ i j, f.order = some i ∧ g.order = some j ∧ i < j

theorem KeyLt.asymm (h : KeyLt f g) : ¬KeyLt g f := by
  obtain ⟨i, j, hi, hj, hlt⟩ := h
  rintro ⟨j', i', hj', hi', hlt'⟩
  cases hi.symm.trans hi'
  cases hj.symm.trans hj'
  exact UInt32.lt_asymm hlt hlt'

theorem keyLe_trans (hfg : keyLe f g) (hgh : keyLe g h) : keyLe f h := by
  -- A field without a key comes before all others, so transitivity is about three keys or holds at
  -- once.
  cases hf : f.order with
  | none => exact keyLe_of_none hf
  | some i =>
    cases hg : g.order with
    | none => simp [keyLe, hf, hg] at hfg
    | some j =>
      cases hh : h.order with
      | none => simp [keyLe, hg, hh] at hgh
      | some k =>
        rw [keyLe_iff hf hg] at hfg
        rw [keyLe_iff hg hh] at hgh
        exact (keyLe_iff hf hh).2 (UInt32.le_trans hfg hgh)

theorem keyLe_total (f g : FieldDecl) : keyLe f g || keyLe g f := by
  rw [Bool.or_eq_true]
  -- As before, by which of the two have keys.
  cases hf : f.order with
  | none => exact .inl (keyLe_of_none hf)
  | some i =>
    cases hg : g.order with
    | none => exact .inr (keyLe_of_none hg)
    | some j =>
      rw [keyLe_iff hf hg, keyLe_iff hg hf]
      exact UInt32.le_total i j

theorem lengthAllowed_iff : f.lengthAllowed ↔
    (f.varLength = true → ∃ kind, f.type.leafKind? = some kind ∧ kind.isInteger = true) := by
  unfold lengthAllowed
  cases f.varLength <;> simp [Option.any_eq_true]

end FieldDecl

theorem firstDescent?_eq_none_iff {fields : List FieldDecl} :
    firstDescent? fields = none ↔ fields.Pairwise fun f g => f.added ≤ g.added := by
  refine ⟨pairwise_of_firstDescent?_eq_none, fun h => ?_⟩
  fun_induction firstDescent? fields with
  -- A descent between neighbours contradicts the order.
  | case1 f g fields hdescent =>
    have hfg : f.added ≤ g.added := List.rel_of_pairwise_cons h List.mem_cons_self
    exact absurd hdescent (UInt32.not_lt.2 hfg)
  | case2 f g fields hdescent ih => exact ih h.of_cons
  | case3 fields hshort => rfl

namespace RecordDecl

variable {d : RecordDecl} {f g : FieldDecl}

/-- A field comes before another one: it has the smaller key, or it is declared first. -/
inductive Precedes (d : RecordDecl) (f g : FieldDecl) : Prop
  | keyed (hf : f ∈ d.fields) (hg : g ∈ d.fields) (hlt : f.KeyLt g)
  | declared (hf : f.order = none) (hg : g.order = none) (h : [f, g].Sublist d.fields)

/-- Keys are given for all fields or for none, and none of them twice. -/
structure KeysConsistent (d : RecordDecl) : Prop where
  all_or_none : (∀ f ∈ d.fields, ∃ i, f.order = some i) ∨ ∀ f ∈ d.fields, f.order = none
  nodup : (d.fields.filterMap (·.order)).Nodup

/-- **What makes a record type.** -/
structure Consistent (d : RecordDecl) : Prop where
  /-- No name is declared twice. -/
  names : (d.fields.map (·.name)).Nodup
  keys : d.KeysConsistent
  /-- Later versions only append. -/
  versions : ∀ f g, d.Precedes f g → f.added ≤ g.added
  /-- Only integers have a variable length, however deep they are in nullables and lists. -/
  lengths : ∀ f ∈ d.fields, f.varLength = true →
    ∃ kind, f.type.leafKind? = some kind ∧ kind.isInteger = true

theorem wireFields_of_none (h : ∀ f ∈ d.fields, f.order = none) : d.wireFields = d.fields :=
  List.mergeSort_of_pairwise (List.pairwise_of_forall_mem_list fun f hf _ _ =>
    FieldDecl.keyLe_of_none (h f hf))

theorem sorted_wireFields (d : RecordDecl) :
    d.wireFields.Pairwise fun f g => FieldDecl.keyLe f g = true :=
  @List.pairwise_mergeSort _ FieldDecl.keyLe (fun _ _ _ => FieldDecl.keyLe_trans)
    FieldDecl.keyLe_total d.fields

/-- Where all fields have keys, the keys grow along the wire order. -/
theorem pairwise_keyed_wireFields (hall : ∀ f ∈ d.fields, ∃ i, f.order = some i)
    (hnodup : (d.fields.filterMap (·.order)).Nodup) :
    d.wireFields.Pairwise FieldDecl.KeyLt := by
  have hdiffer : (d.wireFields.filterMap (·.order)).Nodup :=
    ((List.mergeSort_perm _ _).filterMap _).nodup_iff.2 hnodup
  -- Sorted by keys that all differ: each is smaller than those behind it.
  have hsorted := d.sorted_wireFields.and (List.pairwise_filterMap.1 hdiffer)
  refine hsorted.imp_of_mem fun {f g} hf hg hfg => ?_
  obtain ⟨i, hi⟩ := hall f (mem_wireFields.1 hf)
  obtain ⟨j, hj⟩ := hall g (mem_wireFields.1 hg)
  exact ⟨i, j, hi, hj, UInt32.lt_of_le_of_ne ((FieldDecl.keyLe_iff hi hj).1 hfg.1)
    (hfg.2 i hi j hj)⟩

/-- **The wire order**, said by the keys. -/
theorem pairwise_wireFields_iff (h : d.KeysConsistent) (R : FieldDecl → FieldDecl → Prop) :
    d.wireFields.Pairwise R ↔ ∀ f g, d.Precedes f g → R f g := by
  -- With keys, the order on the wire is that of the keys; without, it is that of the declaration.
  obtain hall | hnone := h.all_or_none
  · rw [pairwise_iff_of_pairwise (fun _ _ => FieldDecl.KeyLt.asymm)
      (pairwise_keyed_wireFields hall h.nodup)]
    constructor
    · rintro hR f g (⟨hf, hg, hlt⟩ | ⟨hf, -, hsub⟩)
      · exact hR f (mem_wireFields.2 hf) g (mem_wireFields.2 hg) hlt
      · obtain ⟨i, hi⟩ := hall f (hsub.subset List.mem_cons_self)
        cases hf.symm.trans hi
    · intro hR f hf g hg hlt
      exact hR f g (.keyed (mem_wireFields.1 hf) (mem_wireFields.1 hg) hlt)
  · rw [wireFields_of_none hnone, List.pairwise_iff_forall_sublist]
    constructor
    · rintro hR f g (⟨hf, -, ⟨i, _, hi, -⟩⟩ | ⟨-, -, hsub⟩)
      · cases (hnone f hf).symm.trans hi
      · exact hR hsub
    · intro hR f g hsub
      have hf : f ∈ d.fields := hsub.subset List.mem_cons_self
      have hg : g ∈ d.fields := hsub.subset (List.mem_cons_of_mem _ List.mem_cons_self)
      exact hR f g (.declared (hnone f hf) (hnone g hg) hsub)

/-- Keys are as many as fields exactly if all fields have one. -/
theorem length_keys_eq_iff :
    (d.fields.filterMap (·.order)).length = d.fields.length ↔
      ∀ f ∈ d.fields, ∃ i, f.order = some i := by
  rw [List.filterMap_length_eq_length]
  simp only [Option.isSome_iff_exists]

theorem keys_eq_nil_iff :
    (d.fields.filterMap (·.order)).length = 0 ↔ ∀ f ∈ d.fields, f.order = none := by
  rw [List.length_eq_zero_iff, List.filterMap_eq_nil_iff]

/-- **The check of a record** passes exactly if the declaration is consistent. -/
theorem check_eq_ok_iff : d.check = .ok () ↔ d.Consistent := by
  rw [check_eq_ok_iff_tests, firstRepeated?_eq_none_iff, firstRepeated?_eq_none_iff,
    firstDescent?_eq_none_iff, List.find?_eq_none]
  simp only [List.not_mem_nil, not_false_eq_true, implies_true, and_true, Bool.not_eq_true',
    Bool.not_eq_false, FieldDecl.lengthAllowed_iff]
  -- The tests run in the order of the fields, the statement is about what has to hold of them.
  constructor
  · rintro ⟨hnames, hsome, hnodup, hversions, hlengths⟩
    have hkeys : d.KeysConsistent := by
      refine ⟨?_, hnodup⟩
      rw [← keys_eq_nil_iff, ← length_keys_eq_iff]
      tauto
    exact ⟨hnames, hkeys, (pairwise_wireFields_iff hkeys _).1 hversions, hlengths⟩
  · rintro ⟨hnames, hkeys, hversions, hlengths⟩
    refine ⟨hnames, ?_, hkeys.nodup, (pairwise_wireFields_iff hkeys _).2 hversions, hlengths⟩
    have hsome := hkeys.all_or_none
    rw [← keys_eq_nil_iff, ← length_keys_eq_iff] at hsome
    tauto

end RecordDecl

/-! ### Groups -/

namespace GroupDecl

variable {d : GroupDecl}

/-- **What makes a group of subtypes.** -/
structure Consistent (d : GroupDecl) : Prop where
  nonempty : d.members ≠ []
  /-- No type is a member twice. -/
  types : d.memberTypes.Nodup
  /-- No tag is used twice, be it given or the position of the member. -/
  tags : (d.tags.map (·.1)).Nodup

theorem taggedMembers_eq_ok_iff :
    (∃ tagged, d.taggedMembers = .ok tagged) ↔ (d.tags.map (·.1)).Nodup := by
  refine ⟨fun ⟨tagged, h⟩ => ?_, fun h => ?_⟩
  · obtain ⟨rfl, hnodup⟩ := taggedMembers_eq_ok h
    exact hnodup
  · unfold taggedMembers
    rw [firstRepeated?_eq_none_iff.2 ⟨h, fun _ _ => List.not_mem_nil⟩]
    exact ⟨_, rfl⟩

/-- **The check of a group** passes exactly if the declaration is consistent. -/
theorem check_eq_ok_iff : d.check = .ok () ↔ d.Consistent := by
  constructor
  -- An accepted group has members, and its types and tags have passed the tests for repetitions.
  · intro h
    refine ⟨?_, nodup_of_check h, taggedMembers_eq_ok_iff.1 ⟨_, taggedMembers_of_check h⟩⟩
    rintro hempty
    unfold check at h
    rw [hempty] at h
    cases h
  · rintro ⟨hnonempty, htypes, htags⟩
    obtain ⟨tagged, htagged⟩ := taggedMembers_eq_ok_iff.2 htags
    have hempty : d.members.isEmpty = false := by simpa using hnonempty
    unfold check
    rw [hempty, firstRepeated?_eq_none_iff.2 ⟨htypes, fun _ _ => List.not_mem_nil⟩, htagged]
    rfl

end GroupDecl

end SchemaWire

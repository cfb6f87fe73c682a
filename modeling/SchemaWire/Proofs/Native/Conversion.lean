import Mathlib.Data.List.OfFn
import SchemaWire.Native.Basic
import SchemaWire.Proofs.Lists
/-!
# Values of native data

Native data is read back from its value, but for one thing: an option that holds an empty option has
the same value as the empty one, so they are read alike. `NativeData.collapse` makes all of these
empty, and `NativeTypes.ofValue_toValue` says that nothing else is lost.

A value need not be the one that the data was turned into. It is read as the data if its nulls are
where the collapsed data is empty and its parts are read as the parts of the data
(`NativeTypes.ofValue_optional`, `NativeTypes.ofValue_list`, `NativeTypes.ofValue_record`).
-/

namespace SchemaWire

theorem Value.isNull_boxed (v : Value) : v.boxed.isNull = v.isNull := by
  cases v <;> rfl

theorem Value.boxed_boxed (v : Value) : v.boxed.boxed = v.boxed := by
  cases v <;> rfl

variable {Γ : NativeTypes} {t content member : NativeType Γ.count} {i : Fin Γ.count} {v : Value}

namespace NativeTypes

theorem isNull_absent (Γ : NativeTypes) (content : NativeType Γ.count) :
    (Γ.absent content).isNull = true := by
  unfold absent
  split <;> rfl

theorem boxed_absent (Γ : NativeTypes) (content : NativeType Γ.count) :
    (Γ.absent content).boxed = Γ.absent content := by
  unfold absent
  split <;> rfl

/-! ### Reading, step by step -/

theorem ofValue_list_eq (Γ : NativeTypes) (member : NativeType Γ.count) (v : Value) :
    Γ.ofValue (.list member) v =
      Native.membersOfValue v >>= fun vs => (Γ.ofValues member vs).map .ofList := by
  -- The match on the members is the bind of the error monad.
  rw [ofValue]
  split
  · next h =>
    simp only [h]
    rfl
  · next h =>
    simp only [h]
    rfl

theorem ofValue_record_eq (Γ : NativeTypes) (i : Fin Γ.count) (v : Value) :
    Γ.ofValue (.record i) v =
      Native.recordOfValue (Γ.record i).name v >>= fun r =>
        (Γ.takeFields (Γ.record i).fields r).map .record := by
  rw [ofValue]
  -- As for lists.
  split
  · next h =>
    simp only [h]
    rfl
  · next h =>
    simp only [h]
    rfl

/-- Fields are taken one by one. -/
theorem takeFields_cons (Γ : NativeTypes) (f : NativeField Γ.count)
    (fields : List (NativeField Γ.count)) (r : Record) :
    Γ.takeFields (f :: fields) r = do
      let x ← (Γ.takeField f.type r f.name).1
      let xs ← Γ.takeFields fields (Γ.takeField f.type r f.name).2
      return fun j => Fin.cases x xs j := by
  rw [takeFields]
  unfold takeField
  -- Taking the field succeeds or fails first, before the others are looked at.
  split
  · next h =>
    simp only [h]
    rfl
  · next h =>
    simp only [h]

end NativeTypes

namespace NativeData

/-! ### What an option cannot tell apart -/

/-- Data that is the empty option, also in a box. -/
def isNone : {t : NativeType Γ.count} → NativeData Γ t → Bool
  | _, .none => true
  | _, .boxed x => x.isNone
  | _, .scalar _ | _, .text _ | _, .some _ | _, .list _ | _, .record _ => false

/-- **Collapsed data**: an option that holds an empty one is empty itself. -/
def collapse : {t : NativeType Γ.count} → NativeData Γ t → NativeData Γ t
  | _, .scalar x => .scalar x
  | _, .text s => .text s
  | _, .none => .none
  | _, .some x => if x.collapse.isNone then .none else .some x.collapse
  | _, .list xs => .list fun j => (xs j).collapse
  | _, .boxed x => .boxed x.collapse
  | _, .record xs => .record fun j => (xs j).collapse

/-- **Nulls are the values of what collapses to nothing.** -/
theorem isNull_toValue (x : NativeData Γ t) : x.toValue.isNull = x.collapse.isNone := by
  -- Only an absent option and what is boxed around one are null.
  induction x with
  | scalar _ | text _ | list _ _ | record _ _ => rfl
  | none => exact Γ.isNull_absent _
  | some x ih =>
    rw [toValue, Value.isNull_boxed, ih, collapse]
    split
    · next hnone => exact hnone
    · next hsome => exact eq_false_of_ne_true hsome
  | boxed x ih => exact ih

/-- The list of the members of a list. -/
theorem ofList_ofFn {n : Nat} (xs : Fin n → NativeData Γ member) :
    ofList (List.ofFn xs) = .list xs := by
  have hlist {m : Nat} {ys : Fin m → NativeData Γ member} (h : List.ofFn ys = List.ofFn xs) :
      NativeData.list ys = .list xs := by
    -- Lists of members determine how many there are as well.
    cases List.ofFn_inj'.1 h
    rfl
  refine hlist (List.ext_getElem (by simp) fun j hj hj' => ?_)
  rw [List.getElem_ofFn]
  rfl

end NativeData

namespace NativeTypes

open NativeData (toValue collapse isNull_toValue ofList ofList_ofFn)

/-- Boxing a scalar does not hide it. -/
theorem ofValue_boxed_toValue (x : NativeData Γ t) :
    Γ.ofValue t x.toValue.boxed = Γ.ofValue t x.toValue := by
  -- Only a scalar and what may stand around it can be boxed; boxing twice is boxing once.
  induction x with
  | scalar x => simp only [ofValue, toValue, Value.boxed, Native.scalarOfValue]
  | text _ | list _ _ | record _ _ => rfl
  | none => rw [toValue, boxed_absent]
  | some x ih => rw [toValue, Value.boxed_boxed]
  | boxed x ih =>
    rw [ofValue, ofValue, toValue, ih]

/-! ### How data is read -/

/-- An option is read from a null, or from what its content is read from. -/
theorem ofValue_optional {x : NativeData Γ (.optional content)} (hnull : v.isNull = x.collapse.isNone)
    (h : ∀ y, x = .some y → Γ.ofValue content v = .ok y.collapse) :
    Γ.ofValue (.optional content) v = .ok x.collapse := by
  rw [ofValue]
  -- An option around an absent value cannot be told from an absent one, which is what collapsing
  -- does.
  cases x with
  | none =>
    have hnull : v.isNull = true := hnull
    rw [if_pos hnull]
    rfl
  | some y =>
    rw [collapse] at hnull ⊢
    by_cases hnone : y.collapse.isNone = true
    · rw [if_pos hnone] at hnull ⊢
      have hnull : v.isNull = true := hnull
      rw [if_pos hnull]
    · rw [if_neg hnone] at hnull ⊢
      have hnull : v.isNull = false := hnull
      rw [hnull, h y rfl]
      rfl

theorem ofValues_ofFn {n : Nat} {vs : Fin n → Value} {xs : Fin n → NativeData Γ member}
    (h : ∀ j, Γ.ofValue member (vs j) = .ok (xs j)) :
    Γ.ofValues member (List.ofFn vs) = .ok (List.ofFn xs) := by
  -- The members are converted from the first to the last.
  induction n with
  | zero =>
    rw [List.ofFn_zero, ofValues]
    rfl
  | succ n ih =>
    rw [List.ofFn_succ, List.ofFn_succ, ofValues, h 0, ih fun j => h j.succ]
    rfl

/-- A list is read member by member. -/
theorem ofValue_list {n : Nat} {vs : Fin n → Value} {xs : Fin n → NativeData Γ member}
    (h : ∀ j, Γ.ofValue member (vs j) = .ok (xs j)) :
    Γ.ofValue (.list member) (.list (List.ofFn vs)) = .ok (.list xs) := by
  rw [ofValue_list_eq]
  change (Γ.ofValues member (List.ofFn vs)).map ofList = _
  rw [ofValues_ofFn h, ← ofList_ofFn]
  rfl

/-- A field that is there is taken out, and the others stay. -/
theorem take_eq_ok {type : TypeName} {fields : FieldMap Value} {field : String}
    (h : fields.find? field = some v) :
    Record.take ⟨type, fields⟩ field = .ok (v, ⟨type, fields.erase field⟩) := by
  simp only [Record.take, Record.remove, Record.get?, h]

/-- **Fields are read wherever in a record they are.** By induction on the fields: those that have
been taken out have other names, so that the rest is still there. -/
theorem takeFields_eq_ok {type : TypeName} {fs : List (NativeField Γ.count)}
    (hnames : (fs.map (·.name)).Nodup) {fields : FieldMap Value}
    {xs : (j : Fin fs.length) → NativeData Γ (fs.get j).type}
    (h : ∀ j, ∃ v, fields.find? (fs.get j).name = some v ∧
      Γ.ofValue (fs.get j).type v = .ok (xs j)) :
    Γ.takeFields fs ⟨type, fields⟩ = .ok xs := by
  induction fs generalizing fields with
  | nil =>
    rw [takeFields]
    exact congrArg Except.ok (funext fun j => j.elim0)
  | cons f fs ih =>
    obtain ⟨hf, hfs⟩ := List.nodup_cons.1 hnames
    obtain ⟨v, hv, hx⟩ := h 0
    -- The names are distinct, so taking the first field out leaves the others in place.
    have hrest : Γ.takeFields fs ⟨type, fields.erase f.name⟩ = .ok fun j => xs j.succ := by
      refine ih hfs fun j => ?_
      obtain ⟨w, hw, hy⟩ := h j.succ
      have hne : f.name ≠ (fs.get j).name := by
        intro heq
        have hmem : (fs.get j).name ∈ fs.map (·.name) := List.mem_map_of_mem (fs.get_mem j)
        rw [← heq] at hmem
        exact hf hmem
      exact ⟨w, (FieldMap.find?_erase_of_ne hne).trans hw, hy⟩
    -- The first field gives its value and leaves the record without it.
    have htake : Γ.takeField f.type ⟨type, fields⟩ f.name =
        (.ok (xs 0), ⟨type, fields.erase f.name⟩) := by
      unfold takeField
      rw [take_eq_ok (show fields.find? f.name = some v from hv)]
      exact Prod.ext hx rfl
    rw [takeFields_cons, htake]
    dsimp only
    rw [hrest]
    refine congrArg Except.ok (funext fun j => ?_)
    cases j using Fin.cases <;> rfl

/-- **A record is read field by field.** -/
theorem ofValue_record {fields : FieldMap Value}
    {xs : (j : Fin (Γ.record i).fields.length) → NativeData Γ ((Γ.record i).fields.get j).type}
    (h : ∀ j, ∃ v, fields.find? ((Γ.record i).fields.get j).name = some v ∧
      Γ.ofValue ((Γ.record i).fields.get j).type v = .ok (xs j)) :
    Γ.ofValue (.record i) (.record (Γ.record i).name fields) = .ok (.record xs) := by
  have hrecord : Native.recordOfValue (Γ.record i).name (.record (Γ.record i).name fields) =
      .ok ⟨(Γ.record i).name, fields⟩ := if_pos rfl
  rw [ofValue_record_eq, hrecord]
  change (Γ.takeFields (Γ.record i).fields ⟨(Γ.record i).name, fields⟩).map NativeData.record = _
  rw [takeFields_eq_ok (Γ.record i).nodup_names h]
  rfl

/-! ### Values of records -/

/-- The values of the fields of a record, under their names. -/
def fieldMap (Γ : NativeTypes) {i : Fin Γ.count}
    (xs : (j : Fin (Γ.record i).fields.length) → NativeData Γ ((Γ.record i).fields.get j).type) :
    FieldMap Value :=
  FieldMap.ofList (List.ofFn fun j => (((Γ.record i).fields.get j).name, (xs j).toValue))

section FieldMap

variable {xs : (j : Fin (Γ.record i).fields.length) →
  NativeData Γ ((Γ.record i).fields.get j).type}

theorem find?_fieldMap (j : Fin (Γ.record i).fields.length) :
    (Γ.fieldMap xs).find? ((Γ.record i).fields.get j).name = some (xs j).toValue := by
  -- The fields of the map are named as declared.
  have hnames : ((List.ofFn fun j =>
      (((Γ.record i).fields.get j).name, (xs j).toValue)).map (·.1)).Nodup := by
    have hmap : (List.ofFn fun j => (((Γ.record i).fields.get j).name, (xs j).toValue)).map (·.1) =
        (Γ.record i).fields.map (·.name) := by
      rw [List.map_ofFn]
      refine Eq.trans ?_ (congrArg (List.map _) (List.ofFn_get (Γ.record i).fields))
      rw [List.map_ofFn]
      rfl
    rw [hmap]
    exact (Γ.record i).nodup_names
  exact (FieldMap.find?_ofList_eq_some_iff hnames).2 (List.mem_ofFn.2 ⟨j, rfl⟩)

theorem mem_fieldMap_iff {y : String × Value} : y ∈ Γ.fieldMap xs ↔
    ∃ j, y = (((Γ.record i).fields.get j).name, (xs j).toValue) := by
  constructor
  · intro hy
    obtain ⟨j, rfl⟩ := List.mem_ofFn.1 (FieldMap.mem_of_mem_ofList hy)
    exact ⟨j, rfl⟩
  · rintro ⟨j, rfl⟩
    exact FieldMap.mem_of_find?_eq_some (find?_fieldMap j)

end FieldMap

/-- **Native data is read back from its value**, collapsed. -/
theorem ofValue_toValue (x : NativeData Γ t) : Γ.ofValue t x.toValue = .ok x.collapse := by
  -- By induction on the native value, with the collapsed value as the result of each part.
  induction x with
  | scalar x =>
    rw [ofValue, toValue]
    simp only [Native.scalarOfValue, Scalar.as?_self]
    rfl
  | text s =>
    rw [ofValue]
    rfl
  -- Absent: the value is null, and nothing of the content is looked at.
  | none =>
    refine ofValue_optional (Γ.isNull_absent _) ?_
    rintro y ⟨⟩
  | some x ih =>
    refine ofValue_optional (isNull_toValue (.some x)) ?_
    rintro y ⟨⟩
    rw [toValue, ofValue_boxed_toValue, ih]
  | list xs ih =>
    rw [toValue]
    exact ofValue_list ih
  | boxed x ih =>
    rw [ofValue, toValue, ih]
    rfl
  | record xs ih => exact ofValue_record fun j => ⟨_, find?_fieldMap j, ih j⟩

end NativeTypes

end SchemaWire

import SchemaWire.Value
import SchemaWire.TypeExpr
/-!
# Conversions from values

The pieces from which the conversions of native types are made: each takes a value of one shape
and reports what it found instead where the shape is another one. A scalar is taken from its bare
and from its boxed form alike.

Fields are taken out of a record one by one (`Record.take`); what is left over at the end does not
matter.
-/

namespace SchemaWire

namespace Native

/-- The report that a value has the wrong shape. -/
def mismatch {α : Type} (expected : String) (v : Value) : Except DecodeError α :=
  .error (.typeMismatch expected v.describe)

/-- The scalar of a kind, from its bare or its boxed form. -/
def scalarOfValue (kind : ScalarKind) (v : Value) : Except DecodeError kind.Carrier :=
  match v with
  | .scalar s | .wrapped (some s) =>
    match s.as? kind with
    | some x => .ok x
    | none => mismatch kind.name (.scalar s)
  | v => mismatch kind.name v

def textOfValue (v : Value) : Except DecodeError String :=
  match v with
  | .text s => .ok s
  | v => mismatch "string" v

/-- The members of the list in a value. -/
def membersOfValue (v : Value) : Except DecodeError (List Value) :=
  match v with
  | .list vs => .ok vs
  | v => mismatch "list" v

/-- The record in a value, which has to be of the given type. -/
def recordOfValue (type : TypeName) (v : Value) : Except DecodeError Record :=
  match v with
  | .record t fields => if t = type then .ok ⟨t, fields⟩ else mismatch ("record " ++ type) v
  | v => mismatch ("record " ++ type) v

/-- The members of a list are smaller than the list. -/
theorem sizeOf_membersOfValue {v : Value} {vs : List Value} (h : membersOfValue v = .ok vs) :
    sizeOf vs < sizeOf v := by
  unfold membersOfValue at h
  split at h
  · cases h
    simp only [Value.list.sizeOf_spec]
    omega
  · cases h

/-- A record in a value is smaller than the value. -/
theorem sizeOf_recordOfValue {type : TypeName} {v : Value} {r : Record}
    (h : recordOfValue type v = .ok r) : sizeOf r.fields < sizeOf v := by
  unfold recordOfValue at h
  split at h
  · split at h
    · cases h
      simp only [Value.record.sizeOf_spec]
      omega
    · cases h
  · cases h

end Native

/-- Takes a field out of a record. Returns its value and the record without it. -/
def Record.take (r : Record) (field : String) : Except DecodeError (Value × Record) :=
  match r.remove field with
  | (some v, r) => .ok (v, r)
  | (none, _) => .error (.missingField r.type field)

/-- Erasing does not make a map any larger. -/
theorem FieldMap.sizeOf_erase_le (m : FieldMap Value) (name : String) :
    sizeOf (erase m name) ≤ sizeOf m := by
  unfold erase
  -- Erasing drops entries, each of which has a size.
  induction m with
  | nil => exact Nat.le_refl _
  | cons f m ih =>
    rw [List.filter_cons]
    split
    · simp only [List.cons.sizeOf_spec]
      omega
    · simp only [List.cons.sizeOf_spec]
      omega

/-- Erasing what is there makes a map smaller. -/
theorem FieldMap.sizeOf_erase_lt {m : FieldMap Value} {name : String} {v : Value}
    (h : m.find? name = some v) : sizeOf (erase m name) < sizeOf m := by
  induction m with
  | nil => cases h
  | cons f m ih =>
    obtain ⟨k, w⟩ := f
    -- The first entry of the name is the one that is dropped.
    by_cases hk : k = name
    · have hle := sizeOf_erase_le m name
      have herase : erase ((k, w) :: m) name = erase m name := by
        rw [erase, List.filter_cons_of_neg (by simpa using hk), erase]
      rw [herase, List.cons.sizeOf_spec]
      omega
    · rw [find?_cons_of_ne hk] at h
      have hlt := ih h
      have herase : erase ((k, w) :: m) name = (k, w) :: erase m name := by
        rw [erase, List.filter_cons_of_pos (by simpa using hk), erase]
      rw [herase, List.cons.sizeOf_spec, List.cons.sizeOf_spec]
      omega

/-- A field that is taken out is smaller than the record, and so is what it leaves. -/
theorem Record.sizeOf_take {r r' : Record} {field : String} {v : Value}
    (h : r.take field = .ok (v, r')) :
    sizeOf v < sizeOf r.fields ∧ sizeOf r'.fields < sizeOf r.fields := by
  unfold Record.take Record.remove at h
  -- What is taken was an entry of the map, and the others are left.
  cases hv : r.get? field with
  | none =>
    rw [hv] at h
    cases h
  | some w =>
    rw [hv] at h
    cases h
    have hmem := List.sizeOf_lt_of_mem (FieldMap.mem_of_find?_eq_some hv)
    rw [Prod.mk.sizeOf_spec] at hmem
    exact ⟨by omega, FieldMap.sizeOf_erase_lt hv⟩

end SchemaWire

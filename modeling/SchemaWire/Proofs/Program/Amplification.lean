import SchemaWire.Proofs.Program.Occupation
/-!
# Input is not amplified without bound

How large a value can become is not a matter of its bytes alone. A record has no bytes of its own, a
field that is not on the wire has none at all, and a list may have many members without any. What a
layout comes to before something takes a byte is its **spread** (`Program.HasSpread`). It is bounded
by the program (`Program.exists_spread_le`), since a record that contains itself with nothing in
between has no spread, and no value either.

All that goes beyond the spread is charged to bytes (`Program.Occupies.charged`). Where something
takes a byte, the byte pays for the spread of what comes with it: of one value behind a marker or a
tag, or of the members of a list without bytes, of which there is a limited number. A list of any
other length has members that pay for themselves. To carry this through lists, everything that takes
bytes at all has to leave a credit of one largest spread behind; the first byte pays for this as
well.
-/

namespace SchemaWire

/-! ### Counting values -/

namespace Value

theorem nodeCountFields_insert_le (fields : FieldMap Value) (name : String) (v : Value) :
    nodeCountFields (fields.insert name v) ≤ nodeCountFields fields + v.nodeCount := by
  induction fields with
  | nil => simp [FieldMap.insert, nodeCountFields]
  | cons x fields ih =>
    obtain ⟨k, w⟩ := x
    rw [FieldMap.insert]
    -- A replaced value only makes the number of nodes smaller.
    split
    · simp only [nodeCountFields]
      omega
    · split
      · simp only [nodeCountFields]
        omega
      · simp only [nodeCountFields]
        omega

theorem nodeCountFields_foldl_insert_le (declared : List (Field Layout))
    (held : Field Layout → Value) (done : FieldMap Value) :
    nodeCountFields (declared.foldl (fun (m : FieldMap Value) f => m.insert f.name (held f)) done) ≤
      nodeCountFields done + (declared.map fun f => (held f).nodeCount).sum := by
  -- Each insertion adds at most the nodes of the inserted value.
  induction declared generalizing done with
  | nil => simp
  | cons f declared ih =>
    have hfirst := nodeCountFields_insert_le done f.name (held f)
    have hrest := ih (done.insert f.name (held f))
    rw [List.foldl_cons, List.map_cons, List.sum_cons]
    omega

theorem nodeCount_box (q : Primitive) (x : Scalar) : (q.box x).nodeCount = 1 := by
  unfold Primitive.box
  split <;> rfl

theorem nodeCount_nullValue (a : Layout) : a.nullValue.nodeCount = 1 := by
  cases a <;> rfl

/-- A default holds nothing inside. -/
theorem nodeCount_default (a : Layout) : a.default.nodeCount = 1 := by
  -- The default of a record is null, not a record.
  cases a with
  | primitive q =>
    change q.default.nodeCount = 1
    unfold Primitive.default
    split <;> rfl
  | nullable inner => exact nodeCount_nullValue inner
  | text | list _ | record _ _ | reference _ | subtypes _ _ => rfl

end Value

namespace Program

variable {p : Program} {a : Layout} {v : Value} {bytes : List UInt8} {k most : Nat}

/-- A record has itself, its fields on the wire and a default for each of the others. -/
theorem nodeCount_record_le (p : Program) (name : TypeName) (held : Field Layout → Value) :
    (Value.record name (p.withDefaults name
      ((p.present name).foldl (fun m f => m.insert f.name (held f)) []))).nodeCount ≤
      1 + (p.omitted name).length + ((p.present name).map fun f => (held f).nodeCount).sum := by
  have hpresent := Value.nodeCountFields_foldl_insert_le (p.present name) held []
  have homitted := Value.nodeCountFields_foldl_insert_le (p.omitted name) (·.layout.default)
    ((p.present name).foldl (fun m f => m.insert f.name (held f)) [])
  -- Defaults are a single node each.
  have hdefaults : ((p.omitted name).map fun f => f.layout.default.nodeCount).sum =
      (p.omitted name).length := by
    simp [Value.nodeCount_default]
  simp only [Value.nodeCountFields, Nat.zero_add] at hpresent
  rw [hdefaults] at homitted
  rw [Value.nodeCount]
  -- One node for the record, one for each omitted field, and those of the fields on the wire.
  unfold withDefaults
  omega

/-! ### The spread of a layout -/

/-- **The spread of a layout**: how many values there are before something takes a byte. -/
inductive HasSpread (p : Program) : Layout → Nat → Prop
  /-- What is no record takes a byte. -/
  | plain {a : Layout} (h : a.recordName? = none) : HasSpread p a 1
  /-- A record comes with its defaults and with what its fields on the wire come with. -/
  | record {a : Layout} {name : TypeName} (spread : Field Layout → Nat)
      (h : a.recordName? = some name)
      (fields : ∀ f ∈ p.present name, HasSpread p f.layout (spread f)) :
      HasSpread p a (1 + (p.omitted name).length + ((p.present name).map spread).sum)

theorem HasSpread.eq_one (h : p.HasSpread a k) (ha : a.recordName? = none) : k = 1 := by
  cases h with
  | plain _ => rfl
  | record _ ha' _ => cases ha.symm.trans ha'

theorem HasSpread.exists_fields {name : TypeName} (h : p.HasSpread a k)
    (ha : a.recordName? = some name) : ∃ spread : Field Layout → Nat,
      k = 1 + (p.omitted name).length + ((p.present name).map spread).sum ∧
        ∀ f ∈ p.present name, p.HasSpread f.layout (spread f) := by
  cases h with
  | plain ha' => cases ha.symm.trans ha'
  | record spread ha' hfields =>
    cases ha.symm.trans ha'
    exact ⟨spread, rfl, hfields⟩

theorem HasSpread.unique {m : Nat} (h : p.HasSpread a k) (h' : p.HasSpread a m) : k = m := by
  induction h generalizing m with
  | plain ha => exact (h'.eq_one ha).symm
  | record spread ha _ ih =>
    obtain ⟨spread', rfl, hfields'⟩ := h'.exists_fields ha
    have hsame := List.map_congr_left fun f hf => ih f hf (hfields' f hf)
    rw [hsame]

/-- A record that the layout does not spell out has no fields at all. -/
theorem omitted_eq_nil {name : TypeName} (h : name ∉ p.records.map (·.1)) :
    p.omitted name = [] := by
  rw [omitted, fieldsOf_eq_nil h, List.filter_nil]

/-- **The spread is bounded** by the program. -/
theorem exists_spread_le (p : Program) : ∃ most, ∀ a k, p.HasSpread a k → k ≤ most := by
  -- A name has at most one spread; those without one do not matter.
  have hname (name : TypeName) : ∃ most, ∀ k, p.HasSpread (.reference name) k → k ≤ most := by
    by_cases h : ∃ k, p.HasSpread (.reference name) k
    · obtain ⟨k, hk⟩ := h
      exact ⟨k, fun m hm => Nat.le_of_eq (hm.unique hk)⟩
    · exact ⟨0, fun k hk => absurd ⟨k, hk⟩ h⟩
  choose bound hbound using hname
  -- Only finitely many names have fields, so their sum bounds every spread.
  refine ⟨1 + ((p.records.map (·.1)).map bound).sum, fun a k hk => ?_⟩
  cases ha : a.recordName? with
  | none =>
    rw [hk.eq_one ha]
    exact Nat.le_add_right 1 _
  | some name =>
    obtain ⟨spread, rfl, hfields⟩ := hk.exists_fields ha
    by_cases hmem : name ∈ p.records.map (·.1)
    · have hle := hbound name _ (.record spread rfl hfields)
      have hsum := List.le_sum_of_mem (List.mem_map_of_mem (f := bound) hmem)
      omega
    · rw [omitted_eq_nil hmem, present_eq_nil hmem]
      exact Nat.le_add_right 1 _

/-! ### Charging values to bytes -/

/-- What is left over for each piece that takes bytes at all. -/
def credit (most : Nat) (bytes : List UInt8) : Nat := if bytes = [] then 0 else most

/-- What a byte pays for. -/
def rate (most : Nat) : Nat := (maxEmptyMembers + 1) * most

theorem credit_append_le (most : Nat) (bytes more : List UInt8) :
    credit most (bytes ++ more) ≤ credit most bytes + credit most more := by
  unfold credit
  by_cases hbytes : bytes = []
  · simp [hbytes]
  · rw [if_neg hbytes, if_neg fun h => hbytes (List.append_eq_nil_iff.1 h).1]
    exact Nat.le_add_right _ _

/-- Fields that are charged one by one are charged together. -/
theorem charged_fields {fields : List (Field Layout)} {nodes spread : Field Layout → Nat}
    {pieceOf : Field Layout → List UInt8}
    (h : ∀ f ∈ fields,
      nodes f + credit most (pieceOf f) ≤ spread f + rate most * (pieceOf f).length) :
    (fields.map nodes).sum + credit most (fields.flatMap pieceOf) ≤
      (fields.map spread).sum + rate most * (fields.flatMap pieceOf).length := by
  induction fields with
  | nil => exact Nat.le_refl 0
  | cons f fields ih =>
    obtain ⟨hf, hfields⟩ := List.forall_mem_cons.1 h
    -- Along the fields; the credit of a concatenation is at most that of its parts.
    have hrest := ih hfields
    have hcredit := credit_append_le most (pieceOf f) (fields.flatMap pieceOf)
    rw [List.map_cons, List.map_cons, List.sum_cons, List.sum_cons, List.flatMap_cons,
      List.length_append, Nat.mul_add]
    omega

/-- Members that come with some spread each. -/
theorem charged_members (most each : Nat) {vs : List Value} {pieces : List (List UInt8)}
    (h : List.Forall₂ (fun v piece => v.nodeCount ≤ each + rate most * piece.length) vs pieces) :
    Value.nodeCountMembers vs ≤ vs.length * each + rate most * pieces.flatten.length := by
  induction h with
  | nil => exact Nat.zero_le _
  | cons hv _ ih =>
    rw [Value.nodeCountMembers, List.length_cons, Nat.succ_mul, List.flatten_cons,
      List.length_append, Nat.mul_add]
    omega

/-- A byte in front pays for the spread of what comes behind it and leaves a credit. -/
theorem charged_behind {nodes : Nat} {front : List UInt8} (hfront : front ≠ [])
    (h : nodes ≤ maxEmptyMembers * most + rate most * bytes.length) :
    nodes + credit most (front ++ bytes) ≤ rate most * (front ++ bytes).length := by
  -- The bytes in front pay for the members that took none.
  have hne : front ++ bytes ≠ [] := fun h => hfront (List.append_eq_nil_iff.1 h).1
  have hlength : bytes.length + 1 ≤ (front ++ bytes).length := by
    have hpos := List.length_pos_iff.2 hfront
    rw [List.length_append]
    omega
  rw [credit, if_neg hne]
  calc nodes + most
      ≤ (maxEmptyMembers * most + rate most * bytes.length) + most := Nat.add_le_add_right h most
    _ = rate most * (bytes.length + 1) := by rw [rate]; ring
    _ ≤ rate most * (front ++ bytes).length := Nat.mul_le_mul_left _ hlength

/-- One value comes with no more than one spread. -/
theorem le_of_charged (hmost : ∀ a k, p.HasSpread a k → k ≤ most)
    (h : ∃ k, p.HasSpread a k ∧ v.nodeCount + credit most bytes ≤ k + rate most * bytes.length) :
    v.nodeCount + credit most bytes ≤ most + rate most * bytes.length := by
  obtain ⟨k, hk, hle⟩ := h
  have := hmost a k hk
  omega

theorem le_maxEmptyMembers_mul (most : Nat) : most ≤ maxEmptyMembers * most :=
  Nat.le_mul_of_pos_left most (by decide)

/-- What stands alone is paid for by its bytes. -/
theorem charged_alone (ha : a.recordName? = none) (hv : v.nodeCount = 1) (hbytes : bytes ≠ []) :
    ∃ k, p.HasSpread a k ∧ v.nodeCount + credit most bytes ≤ k + rate most * bytes.length := by
  refine ⟨1, .plain ha, ?_⟩
  have hpaid : 0 + credit most (bytes ++ []) ≤ rate most * (bytes ++ []).length :=
    charged_behind hbytes (Nat.zero_le _)
  rw [List.append_nil] at hpaid
  omega

/-- A value behind some bytes is paid for by the first of them. -/
theorem charged_after (front : List UInt8) {b : Layout}
    (hmost : ∀ a k, p.HasSpread a k → k ≤ most) (hb : b.recordName? = none) (hfront : front ≠ [])
    (h : ∃ k, p.HasSpread a k ∧ v.nodeCount + credit most bytes ≤ k + rate most * bytes.length) :
    ∃ k, p.HasSpread b k ∧
      v.nodeCount + credit most (front ++ bytes) ≤ k + rate most * (front ++ bytes).length := by
  refine ⟨1, .plain hb, Nat.le_add_left_of_le (charged_behind hfront ?_)⟩
  have hle := le_of_charged hmost h
  have hmany := le_maxEmptyMembers_mul most
  omega

/-- **Members of a list** come with the spread of as many values as can have no bytes. -/
theorem charged_list {member : Layout} {vs : List Value} {pieces : List (List UInt8)}
    (hmost : ∀ a k, p.HasSpread a k → k ≤ most)
    (h : List.Forall₂ (fun v piece => ∃ k, p.HasSpread member k ∧
      v.nodeCount + credit most piece ≤ k + rate most * piece.length) vs pieces)
    (hsize : ∀ piece ∈ pieces, p.minSize member ≤ piece.length)
    (hlimit : vs.length ≤ p.countLimit member pieces.flatten.length) :
    Value.nodeCountMembers vs ≤ maxEmptyMembers * most + rate most * pieces.flatten.length := by
  by_cases hzero : p.minSize member = 0
  · -- Nothing is known of the members but that there are not many.
    rw [countLimit, if_pos hzero] at hlimit
    have hmembers := charged_members most most (h.imp fun v piece hx => by
      have := le_of_charged hmost hx
      omega)
    have hmany := Nat.mul_le_mul_right most hlimit
    omega
  · -- Every member has bytes, so what it leaves over pays for its spread.
    have hmembers := charged_members most 0
      ((forall₂_and_mem h).imp fun v piece hx => by
        have hle := le_of_charged hmost hx.2.2
        have hne : piece ≠ [] :=
          ne_nil_of_le_length (hsize piece hx.2.1) (Nat.one_le_iff_ne_zero.2 hzero)
        rw [credit, if_neg hne] at hle
        omega)
    omega

/-- **Values are charged to bytes**: beyond the spread of its layout, a value has no more values
inside than its bytes pay for, with something left over if there are any. -/
theorem Occupies.charged (hmost : ∀ a k, p.HasSpread a k → k ≤ most) (h : p.Occupies a v bytes) :
    ∃ k, p.HasSpread a k ∧ v.nodeCount + credit most bytes ≤ k + rate most * bytes.length := by
  -- By induction on what the bytes are occupied by: whatever takes bytes is charged to them, and
  -- what takes none is bounded by the spread of its layout.
  induction h with
  | primitive hbytes => exact charged_alone rfl (Value.nodeCount_box _ _) hbytes
  | text hbytes => exact charged_alone rfl rfl hbytes
  | null => exact charged_alone rfl (Value.nodeCount_nullValue _) (List.cons_ne_nil _ _)
  | packed => exact charged_alone rfl (Value.nodeCount_box _ _) (List.cons_ne_nil _ _)
  | @present inner v byte bytes _ ih =>
    exact charged_after [byte] hmost rfl (List.cons_ne_nil _ _) ih
  | subtypes _ htag _ ih => exact charged_after _ hmost rfl htag ih
  | @list member vs count pieces hcount hlength _ hsize hlimit ih =>
    -- The members without bytes are at most as many as the list limit admits, and the count pays
    -- for them.
    have hmembers := charged_list hmost (List.forall₂_iff_zip.2 ⟨hlength, fun hx => ih _ _ hx⟩)
      hsize hlimit
    refine ⟨1, .plain rfl, ?_⟩
    have hpaid := charged_behind hcount hmembers
    rw [Value.nodeCount]
    omega
  | @record a name held pieceOf ha _ ih =>
    choose! spread hspread using ih
    refine ⟨_, .record spread ha fun f hf => (hspread f hf).1, ?_⟩
    have hcount := p.nodeCount_record_le name held
    have hfields := charged_fields fun f hf => (hspread f hf).2
    omega

/-- **There is a bound on amplification** that depends on the program alone. -/
theorem exists_nodeCount_le (p : Program) : ∃ c, ∀ a v bytes, p.Occupies a v bytes →
    v.nodeCount ≤ c * (bytes.length + 1) := by
  obtain ⟨most, hmost⟩ := p.exists_spread_le
  refine ⟨rate most, fun a v bytes h => ?_⟩
  have hle := le_of_charged hmost (h.charged hmost)
  have hmany : most ≤ rate most := Nat.le_mul_of_pos_left most (by decide)
  rw [Nat.mul_add, Nat.mul_one]
  omega

end Program

end SchemaWire

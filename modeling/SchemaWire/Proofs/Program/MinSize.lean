import Mathlib.Logic.Relation
import Mathlib.Data.List.Perm.Subperm
import Mathlib.Algebra.Order.BigOperators.Group.List
import SchemaWire.Proofs.Lists
import SchemaWire.Proofs.Program.Scripts
/-!
# The least size of a layout

The search for least sizes remembers what it has measured and counts a record that is being measured
as empty, so its answers depend on where it starts. `Program.HasSize` is what it searches for, said
without a search: the size of a layout that is no record is fixed, and a record has the sum of the
sizes of its fields. A record that contains itself with nothing in between has no size at all, and
no value either.

* `Program.recordSize_eq`, `Program.minSize_eq` — **the search is right** wherever there is
  something to find: whatever it remembers and whatever is open around it, its answer for a layout
  that has a size is this size.
* `Program.exists_hasSize` — a layout of which there is a value has a size.
* `Program.minSize_le_length` — no value takes fewer bytes than the least size of its layout.
* `Program.wordSize_eq` — added up in a word, the size is the same or does not fit.
-/

namespace SchemaWire

namespace Program

variable {p : Program} {a : Layout} {v : Value} {k : Nat} {name : TypeName}

/-- **The least size of a layout**, by recursion through the fields on the wire. -/
inductive HasSize (p : Program) : Layout → Nat → Prop
  /-- The size of a layout that is no record does not depend on what is inside. -/
  | plain {a : Layout} (h : a.recordName? = none) : HasSize p a (p.plainSize a)
  /-- A record takes what its fields take. -/
  | record {a : Layout} {name : TypeName} (size : Layout → Nat) (h : a.recordName? = some name)
      (fields : ∀ f ∈ p.present name, HasSize p f.layout (size f.layout)) :
      HasSize p a ((p.present name).map fun f => size f.layout).sum

/-- A record has a field on the wire that is the other record and nothing more. -/
def Holds (p : Program) (name other : TypeName) : Prop :=
  ∃ f ∈ p.present name, f.layout.recordName? = some other

/-! ### Sizes are unique -/

theorem HasSize.eq_plainSize (h : p.HasSize a k) (ha : a.recordName? = none) :
    k = p.plainSize a := by
  cases h with
  | plain _ => rfl
  | record _ ha' _ => rw [ha] at ha'; cases ha'

/-- The size of a record is the sum of the sizes of its fields. -/
theorem HasSize.exists_fields (h : p.HasSize a k) (ha : a.recordName? = some name) :
    ∃ size : Layout → Nat, k = ((p.present name).map fun f => size f.layout).sum ∧
      ∀ f ∈ p.present name, p.HasSize f.layout (size f.layout) := by
  cases h with
  | plain ha' => rw [ha] at ha'; cases ha'
  | record size ha' hfields =>
    cases ha.symm.trans ha'
    exact ⟨size, rfl, hfields⟩

/-- A record and a reference to it have the same size. -/
theorem HasSize.of_recordName? {b : Layout} (h : p.HasSize a k) (ha : a.recordName? = some name)
    (hb : b.recordName? = some name) : p.HasSize b k := by
  obtain ⟨size, rfl, hfields⟩ := h.exists_fields ha
  exact .record size hb hfields

theorem HasSize.unique {m : Nat} (h : p.HasSize a k) (h' : p.HasSize a m) : k = m := by
  induction h generalizing m with
  | plain ha => exact (h'.eq_plainSize ha).symm
  | record size ha _ ih =>
    obtain ⟨size', rfl, hfields'⟩ := h'.exists_fields ha
    refine congrArg List.sum (List.map_congr_left fun f hf => ?_)
    exact ih f hf (hfields' f hf)

/-- A record that contains itself with nothing in between has no size. -/
theorem HasSize.not_holds_self (h : p.HasSize a k) (ha : a.recordName? = some name) :
    ¬Relation.TransGen p.Holds name name := by
  induction h generalizing name with
  | plain ha' => rw [ha] at ha'; cases ha'
  | record size ha' _ ih =>
    cases ha.symm.trans ha'
    intro hself
    -- The record next on the way round contains itself just as well.
    obtain ⟨next, ⟨f, hf, hnext⟩, hback⟩ := Relation.TransGen.head'_iff.1 hself
    exact ih f hf hnext (Relation.TransGen.tail' hback ⟨f, hf, hnext⟩)

/-! ### The search finds the size -/

/-- What has been remembered is right. -/
def Faithful (p : Program) (memo : SizeMemo Nat) : Prop :=
  ∀ name m, memo.lookup name = some m → ∀ k, p.HasSize (.reference name) k → m = k

/-- The records that a layout spells out and that are not open. -/
def unopened (p : Program) (opened : List TypeName) : List TypeName :=
  (p.records.map (·.1)).filter (· ∉ opened)

theorem Faithful.nil : p.Faithful [] := by
  intro name m h
  cases h

theorem Faithful.cons {memo : SizeMemo Nat} {m : Nat} (hmemo : p.Faithful memo)
    (h : ∀ k, p.HasSize (.reference name) k → m = k) : p.Faithful ((name, m) :: memo) := by
  intro other m' hlookup
  rw [List.lookup_cons] at hlookup
  -- The new entry hides an older one of this name and no other.
  by_cases hother : other = name
  · subst hother
    simp only [beq_self_eq_true, Option.some.injEq] at hlookup
    exact hlookup ▸ h
  · simp only [beq_false_of_ne hother] at hlookup
    exact hmemo other m' hlookup

/-- A record that the layout does not spell out has no fields. -/
theorem fieldsOf_eq_nil (h : name ∉ p.records.map (·.1)) : p.fieldsOf name = [] := by
  have hlookup : p.records.lookup name = none := by
    rw [List.lookup_eq_none_iff]
    intro r hr
    simpa using fun e => h (List.mem_map.2 ⟨r, hr, e.symm⟩)
  rw [fieldsOf, hlookup, Option.getD_none]

theorem present_eq_nil (h : name ∉ p.records.map (·.1)) : p.present name = [] := by
  rw [present, fieldsOf_eq_nil h, List.filter_nil]

/-- Opening one more record leaves fewer unopened. -/
theorem length_unopened_lt {opened : List TypeName} (hname : name ∈ p.records.map (·.1))
    (h : name ∉ opened) :
    (p.unopened (name :: opened)).length < (p.unopened opened).length :=
  length_filter_not_mem_cons_lt hname h

/-- What the search for a record has to come to, and what it has to leave behind. -/
def Finds (p : Program) (record : TypeName → SizeMemo Nat → Nat × SizeMemo Nat) (name : TypeName) : Prop :=
  ∀ memo, p.Faithful memo → p.Faithful (record name memo).2 ∧
    ∀ k, p.HasSize (.reference name) k → (record name memo).1 = k

/-- The answer for a layout that is no record. -/
theorem layoutSize_of_plain {record : TypeName → SizeMemo Nat → Nat × SizeMemo Nat}
    (ha : a.recordName? = none) (memo : SizeMemo Nat) :
    p.layoutSize record a memo = (p.plainSize a, memo) := by
  cases a <;> first | rfl | cases ha

/-- A record that is spelled out is measured by its name, like a reference to it. -/
theorem layoutSize_of_record {record : TypeName → SizeMemo Nat → Nat × SizeMemo Nat}
    (ha : a.recordName? = some name) (memo : SizeMemo Nat) :
    p.layoutSize record a memo = record name memo := by
  cases a <;> cases ha <;> rfl

theorem layoutSize_eq {record : TypeName → SizeMemo Nat → Nat × SizeMemo Nat}
    (h : ∀ name, a.recordName? = some name → p.Finds record name) {memo : SizeMemo Nat}
    (hmemo : p.Faithful memo) :
    p.Faithful (p.layoutSize record a memo).2 ∧
      ∀ k, p.HasSize a k → (p.layoutSize record a memo).1 = k := by
  -- A layout that names no record is measured without the memo, which stays as it was.
  cases hname : a.recordName? with
  | none =>
    rw [layoutSize_of_plain hname]
    exact ⟨hmemo, fun k hk => (hk.eq_plainSize hname).symm⟩
  | some name =>
    rw [layoutSize_of_record hname]
    obtain ⟨hfaithful, hsize⟩ := h name hname memo hmemo
    exact ⟨hfaithful, fun k hk => hsize k (hk.of_recordName? hname rfl)⟩

theorem fieldsSize_eq {record : TypeName → SizeMemo Nat → Nat × SizeMemo Nat} {fields : List (Field Layout)}
    (h : ∀ f ∈ fields, ∀ name, f.layout.recordName? = some name → p.Finds record name)
    {memo : SizeMemo Nat} (hmemo : p.Faithful memo) :
    p.Faithful (p.fieldsSize record fields memo).2 ∧
      ∀ size : Layout → Nat, (∀ f ∈ fields, p.HasSize f.layout (size f.layout)) →
        (p.fieldsSize record fields memo).1 = (fields.map fun f => size f.layout).sum := by
  induction fields generalizing memo with
  | nil => exact ⟨hmemo, fun _ _ => rfl⟩
  | cons f fields ih =>
    obtain ⟨hf, hfields⟩ := List.forall_mem_cons.1 h
    obtain ⟨hfirst, hfirstSize⟩ := layoutSize_eq hf hmemo
    -- Measuring the first field leaves a memo behind that is right for the others.
    obtain ⟨hrest, hrestSize⟩ := ih hfields hfirst
    refine ⟨hrest, fun size hsize => ?_⟩
    obtain ⟨hsizef, hsizes⟩ := List.forall_mem_cons.1 hsize
    rw [fieldsSize, List.map_cons, List.sum_cons, hfirstSize _ hsizef, hrestSize size hsizes]

/-- The answer for a record that has been measured before. -/
theorem recordSize_of_lookup {memo : SizeMemo Nat} {m : Nat} (h : memo.lookup name = some m)
    (fuel : Nat) (opened : List TypeName) : p.recordSize fuel opened name memo = (m, memo) := by
  rw [recordSize.eq_def, h]

/-- The answer for a record that is being measured. -/
theorem recordSize_of_mem {memo : SizeMemo Nat} {opened : List TypeName}
    (h : memo.lookup name = none) (ho : name ∈ opened) (fuel : Nat) :
    p.recordSize fuel opened name memo = (0, memo) := by
  rw [recordSize.eq_def, h]
  exact if_pos ho

/-- Once all records are open, the one that is measured has no fields on the wire if it has a size
at all: it is open itself, or the layout does not spell it out. -/
theorem eq_zero_of_unopened_eq_nil {opened : List TypeName}
    (hopened : ∀ o ∈ opened, Relation.TransGen p.Holds o name) (hnone : p.unopened opened = [])
    (hk : p.HasSize (.reference name) k) : k = 0 := by
  -- A name that has fields would have to be open, and so would be part of itself.
  by_cases hname : name ∈ p.records.map (·.1)
  · rw [unopened, List.filter_eq_nil_iff] at hnone
    have ho : name ∈ opened := by simpa using hnone name hname
    exact absurd (hopened name ho) (hk.not_holds_self rfl)
  · obtain ⟨size, rfl, -⟩ := hk.exists_fields rfl
    rw [present_eq_nil hname]
    rfl

/-- Only a record that the layout spells out has fields, and opening it leaves fewer unopened. -/
theorem length_unopened_cons_le {opened : List TypeName} {fuel : Nat} {f : Field Layout}
    (hf : f ∈ p.present name) (ho : name ∉ opened)
    (hfuel : (p.unopened opened).length ≤ fuel + 1) :
    (p.unopened (name :: opened)).length ≤ fuel := by
  have hname : name ∈ p.records.map (·.1) := by
    by_contra hname
    rw [present_eq_nil hname] at hf
    cases hf
  exact Nat.le_of_lt_succ (Nat.lt_of_lt_of_le (length_unopened_lt hname ho) hfuel)

/-- **The search is right.** If the records that are open lead to the one that is measured, and
there is fuel for all others, then what is found is the size of the record, if it has one. -/
theorem recordSize_eq (fuel : Nat) (opened : List TypeName)
    (hopened : ∀ o ∈ opened, Relation.TransGen p.Holds o name)
    (hfuel : (p.unopened opened).length ≤ fuel) : p.Finds (p.recordSize fuel opened) name := by
  -- By induction on the fuel, which is enough to open every record that is not open yet.
  induction fuel generalizing opened name with
  | zero =>
    intro memo hmemo
    cases hlookup : memo.lookup name with
    | some m =>
      rw [recordSize_of_lookup hlookup]
      exact ⟨hmemo, hmemo name m hlookup⟩
    | none =>
      have hzero : p.recordSize 0 opened name memo = (0, memo) := by
        rw [recordSize, hlookup]
        exact ite_self _
      have hnone := List.eq_nil_of_length_eq_zero (Nat.le_zero.1 hfuel)
      rw [hzero]
      exact ⟨hmemo, fun k hk => (eq_zero_of_unopened_eq_nil hopened hnone hk).symm⟩
  | succ fuel ih =>
    intro memo hmemo
    cases hlookup : memo.lookup name with
    | some m =>
      rw [recordSize_of_lookup hlookup]
      exact ⟨hmemo, hmemo name m hlookup⟩
    | none =>
      by_cases ho : name ∈ opened
      · -- A record that is open leads to itself, so it has no size.
        rw [recordSize_of_mem hlookup ho]
        exact ⟨hmemo, fun k hk => absurd (hopened name ho) (hk.not_holds_self rfl)⟩
      · have hfields : ∀ f ∈ p.present name, ∀ next, f.layout.recordName? = some next →
            p.Finds (p.recordSize fuel (name :: opened)) next := by
          intro f hf next hnext
          have hstep : p.Holds name next := ⟨f, hf, hnext⟩
          refine ih (name :: opened) (List.forall_mem_cons.2 ⟨.single hstep, ?_⟩)
            (length_unopened_cons_le hf ho hfuel)
          exact fun o h => (hopened o h).tail hstep
        -- The fields are measured one after another, and the memo grows on the way.
        obtain ⟨hmemo', hsum⟩ := fieldsSize_eq hfields hmemo
        have hsize : ∀ k, p.HasSize (.reference name) k →
            (p.fieldsSize (p.recordSize fuel (name :: opened)) (p.present name) memo).1 = k := by
          intro k hk
          obtain ⟨size, rfl, hsizes⟩ := hk.exists_fields rfl
          exact hsum size hsizes
        simp only [recordSize, hlookup, if_neg ho]
        exact ⟨hmemo'.cons hsize, hsize⟩

/-- **The least size that is found is the size of the layout**, if it has one. -/
theorem minSize_eq (h : p.HasSize a k) : p.minSize a = k := by
  have hfinds : ∀ name, a.recordName? = some name →
      p.Finds (p.recordSize (p.records.length + 1) []) name := by
    intro name _
    refine recordSize_eq _ [] (fun o ho => absurd ho List.not_mem_nil) ?_
    exact Nat.le_succ_of_le ((List.length_filter_le _ _).trans (List.length_map _).le)
  exact (layoutSize_eq hfinds Faithful.nil).2 k h

/-! ### A layout of which there is a value has a size -/

theorem exists_hasSize {room : Nat} (h : (p.layoutScript (p.recordScript room) a v).Valid) :
    ∃ k, p.HasSize a k := by
  -- By induction on the room: what a valid value holds has been written with less.
  induction room generalizing a v with
  | zero =>
    cases ha : a.recordName? with
    | none => exact ⟨_, .plain ha⟩
    | some name =>
      obtain ⟨inner, fields, hroom, -⟩ := exists_of_valid_record ha h
      cases hroom
  | succ room ih =>
    cases ha : a.recordName? with
    | none => exact ⟨_, .plain ha⟩
    | some name =>
      obtain ⟨inner, fields, hroom, -, -, hfields⟩ := exists_of_valid_record ha h
      cases hroom
      -- A size for each layout, so that one function of layouts gives the sizes of all fields.
      have hsizes : ∀ b, ∃ k, ∀ f ∈ p.present name, f.layout = b → p.HasSize b k := by
        intro b
        by_cases hb : ∃ f ∈ p.present name, f.layout = b
        · obtain ⟨f, hf, rfl⟩ := hb
          obtain ⟨x, -, hx⟩ := hfields f hf
          obtain ⟨k, hk⟩ := ih hx
          exact ⟨k, fun _ _ _ => hk⟩
        · exact ⟨0, fun f hf e => absurd ⟨f, hf, e⟩ hb⟩
      choose size hsize using hsizes
      exact ⟨_, .record size ha fun f hf => hsize f.layout f hf rfl⟩

/-- The least size that is found for a layout of which there is a value is its size. -/
theorem hasSize_minSize {room : Nat} (h : (p.layoutScript (p.recordScript room) a v).Valid) :
    p.HasSize a (p.minSize a) := by
  obtain ⟨k, hk⟩ := exists_hasSize h
  exact minSize_eq hk ▸ hk

/-! ### No value takes fewer bytes -/

/-- Eight bytes are the most that a layout other than a record can take at least. -/
theorem plainSize_le (a : Layout) : p.plainSize a ≤ 8 := by
  cases a with
  | primitive q =>
    change q.minSize p.format ≤ 8
    -- A fixed-width number takes at most eight bytes.
    unfold Primitive.minSize
    split
    · decide
    · cases q.kind <;> decide
  | text | list _ | subtypes _ _ =>
    simp only [plainSize]
    split <;> decide
  | nullable _ => exact (by decide : 1 ≤ 8)
  | record _ _ | reference _ => exact Nat.zero_le 8

theorem plainSize_subtypes_le (tag : UInt32) :
    (if p.tagEncoding = .u16 then 2 else 1) ≤ ((p.tagStep tag).bytes p.format).length := by
  unfold tagStep
  cases p.tagEncoding with
  | u8 => simp [Step.bytes]
  | u16 => simp [Step.bytes]
  | varint => simpa [Step.bytes] using Nat.succ_le_of_lt (Varint.size_pos tag.toUInt64)

theorem plainSize_length_le (n : Nat) :
    (if p.format.varintLengths then 1 else 4) ≤ ((Step.length n).bytes p.format).length := by
  unfold Step.bytes
  cases p.format.varintLengths with
  | false => simp
  | true => simpa using Nat.succ_le_of_lt (Varint.size_pos (UInt64.ofNat n))

/-- A nullable begins with a byte, be it packed or not. -/
theorem one_le_length_nullable {call : TypeName → Value → Script} {inner : Layout}
    (h : (p.layoutScript call (.nullable inner) v).Valid) :
    1 ≤ ((p.layoutScript call (.nullable inner) v).bytes p.format).length := by
  -- Packed, the null is a byte of its own kind; otherwise the presence byte is there in any case.
  cases hpacked : p.packed? inner with
  | some wrapped =>
    rw [layoutScript_nullable_of_packed hpacked] at h ⊢
    obtain ⟨q, -, hkind, rfl⟩ := packed?_eq_some hpacked
    rcases (valid_packedScript_iff hkind).1 h with hnull | ⟨⟨k, b⟩, rfl, hs⟩
    · simp [packedScript_of_isNull hnull, Step.bytes]
    · obtain rfl : k = .bool := hs.trans hkind
      simp [packedScript_box, Step.bytes]
  | none =>
    by_cases hnull : v.isNull = true
    · simp [layoutScript_nullable_of_isNull hpacked hnull, Step.bytes]
    · simp [layoutScript_nullable_of_not_isNull hpacked hnull, Step.bytes]

/-- The first step of a value that is no record takes the least size by itself. -/
theorem plainSize_le_length {call : TypeName → Value → Script} (ha : a.recordName? = none)
    (h : (p.layoutScript call a v).Valid) :
    p.plainSize a ≤ ((p.layoutScript call a v).bytes p.format).length := by
  -- Each kind of layout begins with bytes of its own, and the rest only adds to them.
  cases a with
  | primitive q =>
    obtain ⟨s, rfl, hkind⟩ := Primitive.valid_script_iff.1 h
    change q.minSize p.format ≤ ((q.script p.format (q.box s)).bytes p.format).length
    rw [Primitive.script_box hkind, Script.bytes_cons, Script.bytes_nil, List.append_nil]
    exact Primitive.minSize_le_length s
  | text =>
    obtain ⟨t, rfl, -⟩ := valid_textScript_iff.1 h
    have := plainSize_length_le (p := p) t.toUTF8.size
    simp only [plainSize, layoutScript, textScript, Script.bytes_cons, List.length_append]
    omega
  | list member =>
    obtain ⟨vs, rfl, hcount, -⟩ := valid_list_iff.1 h
    have := plainSize_length_le (p := p) vs.length
    rw [layoutScript_list hcount, Script.bytes_cons, List.length_append]
    simp only [plainSize]
    omega
  | nullable inner => exact one_le_length_nullable h
  | subtypes group members =>
    obtain ⟨m, -, hscript⟩ := exists_of_valid_subtypes h
    have := plainSize_subtypes_le (p := p) m.tag
    rw [hscript, Script.bytes_cons, List.length_append]
    simp only [plainSize]
    omega
  | record name fields => cases ha
  | reference name => cases ha

theorem HasSize.le_length (h : p.HasSize a k) {room : Nat}
    (hvalid : (p.layoutScript (p.recordScript room) a v).Valid) :
    k ≤ ((p.layoutScript (p.recordScript room) a v).bytes p.format).length := by
  induction h generalizing room v with
  | plain ha => exact plainSize_le_length ha hvalid
  | record size ha _ ih =>
    obtain ⟨inner, fields, rfl, rfl, hdeclared, hfields⟩ := exists_of_valid_record ha hvalid
    -- The bytes of a record are those of its fields, so the bounds add up.
    have hfound := fun f hf => (hfields f hf).imp fun _ hx => hx.1
    rw [bytes_record ha hdeclared hfound, List.length_flatMap]
    refine List.sum_le_sum fun f hf => ?_
    obtain ⟨x, hx, hxvalid⟩ := hfields f hf
    rw [hx, Option.getD_some]
    exact ih f hf hxvalid

/-- **No value takes fewer bytes than the least size of its layout.** -/
theorem minSize_le_length {room : Nat}
    (hvalid : (p.layoutScript (p.recordScript room) a v).Valid) :
    p.minSize a ≤ ((p.layoutScript (p.recordScript room) a v).bytes p.format).length :=
  (hasSize_minSize hvalid).le_length hvalid

end Program

/-! ### Sizes in a word -/

namespace WordSize

/-- Adding up in a word is adding up, as long as the sum fits. -/
theorem ofNat_add (m n : Nat) : ofNat (m + n) = ofNat m + ofNat n := by
  change ofNat (m + n) = add (ofNat m) (ofNat n)
  by_cases hm : m < UInt64.size
  · by_cases hn : n < UInt64.size
    · simp only [ofNat, if_pos hm, if_pos hn, add]
    · -- What does not fit is no larger than a sum that it is a part of.
      have hsum : ¬m + n < UInt64.size := by omega
      simp only [ofNat, if_pos hm, if_neg hn, if_neg hsum, add]
  · have hsum : ¬m + n < UInt64.size := by omega
    simp only [ofNat, if_neg hm, if_neg hsum, add]

theorem fits_ofNat {n : Nat} : (ofNat n).fits = true ↔ n < 2 ^ 64 := by
  unfold ofNat
  split
  · next h => exact iff_of_true rfl h
  · next h => exact iff_of_false nofun h

end WordSize

namespace Program

variable {p : Program} {a : Layout}

/-- What is remembered, in words. -/
def wordMemo (memo : SizeMemo Nat) : SizeMemo WordSize :=
  memo.map fun x => (x.1, WordSize.ofNat x.2)

section Words

variable {record : TypeName → SizeMemo Nat → Nat × SizeMemo Nat}
  {record' : TypeName → SizeMemo WordSize → WordSize × SizeMemo WordSize}
  (hrecord : ∀ name memo,
    record' name (wordMemo memo) = (record name memo).map WordSize.ofNat wordMemo)
include hrecord

theorem layoutSize_word (a : Layout) (memo : SizeMemo Nat) :
    p.layoutSize record' a (wordMemo memo) =
      (p.layoutSize record a memo).map WordSize.ofNat wordMemo := by
  cases a with
  | record name _ | reference name => exact hrecord name memo
  | _ => rfl

theorem fieldsSize_word (fields : List (Field Layout)) (memo : SizeMemo Nat) :
    p.fieldsSize record' fields (wordMemo memo) =
      (p.fieldsSize record fields memo).map WordSize.ofNat wordMemo := by
  induction fields generalizing memo with
  | nil => rfl
  | cons f fields ih =>
    rw [fieldsSize, fieldsSize]
    simp only [layoutSize_word hrecord, Prod.map, ih, WordSize.ofNat_add]

end Words

/-- **The search in words takes the same steps**, by induction on the records that may still be
opened. What does not fit stays with the sum that it is a part of. -/
theorem recordSize_word (fuel : Nat) (opened : List TypeName) (name : TypeName)
    (memo : SizeMemo Nat) : p.recordSize fuel opened name (wordMemo memo) =
      (p.recordSize fuel opened name memo).map WordSize.ofNat wordMemo := by
  -- The memo of words holds the words of the memo under the same names.
  have hlookup (name : TypeName) (memo : SizeMemo Nat) :
      (wordMemo memo).lookup name = (memo.lookup name).map WordSize.ofNat :=
    lookup_map_of_injective Function.injective_id (fun _ => WordSize.ofNat) memo name
  -- Fuel runs down alike on both sides: the two searches open the same records.
  induction fuel generalizing opened name memo with
  | zero =>
    rw [recordSize, recordSize, hlookup]
    cases memo.lookup name with
    | some size => rfl
    | none =>
      simp only [Option.map_none]
      split <;> rfl
  | succ fuel ih =>
    rw [recordSize, recordSize, hlookup]
    cases memo.lookup name with
    | some size => rfl
    | none =>
      simp only [Option.map_none]
      split
      · rfl
      · simp only [fieldsSize_word (ih (name :: opened))]
        rfl

/-- **The least size in a word** is the least size, if that fits. -/
theorem wordSize_eq (p : Program) (a : Layout) : p.wordSize a = .ofNat (p.minSize a) :=
  congrArg Prod.fst (layoutSize_word (recordSize_word (p.records.length + 1) []) a [])

theorem fits_wordSize : (p.wordSize a).fits = true ↔ p.minSize a < 2 ^ 64 := by
  rw [wordSize_eq, WordSize.fits_ofNat]

end Program

end SchemaWire

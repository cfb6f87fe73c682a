import SchemaWire.Proofs.Program.MinSize
/-!
# Conformance

What an encoder accepts, said of a layout and a version alone. `Layout.Conforms` goes through a
layout and a value side by side and knows nothing of bytes: it names no format and no tag encoding,
and the one bound that sizes have a part in, that of lists of members without bytes, is said by
`Snapshot.Weightless` in terms of records and their fields.

* `Layout.Admits` is one layer of it, between two records, and `Snapshot.RecordConforms` is the
  layer of records, each of them using up one of the levels of nesting that are left.
* `Program.valid_iff_admits` — a program's script for a value is valid exactly when the value
  conforms.
-/

namespace SchemaWire

/-- **A record that puts no byte on the wire**: every field of it that is on the wire is such a
record itself. -/
inductive Snapshot.Weightless (s : Snapshot) : TypeName → Prop
  | mk {name : TypeName} (isRecord : ∀ f ∈ s.present name, f.layout.recordName?.isSome)
      (weightless : ∀ f ∈ s.present name, ∀ inner, f.layout.recordName? = some inner →
        s.Weightless inner) : s.Weightless name

/-- The members of a list are records that put no byte on the wire. -/
def Snapshot.WeightlessMember (s : Snapshot) (member : Layout) : Prop :=
  ∃ name, member.recordName? = some name ∧ s.Weightless name

/-- **What a layout admits**, where `record` says what the records in it admit. -/
def Layout.Admits (s : Snapshot) (record : TypeName → Value → Prop) : Layout → Value → Prop
  | .primitive q, v => ∃ x : Scalar, v = q.box x ∧ x.kind = q.kind
  | .text, v => ∃ t, v = .text t ∧ t.toUTF8.size < 2 ^ 32
  | .nullable inner, v => v.isNull = true ∨ inner.Admits s record v
  | .list member, v => ∃ vs, v = .list vs ∧ vs.length < 2 ^ 32 ∧
      (s.WeightlessMember member → vs.length ≤ Program.maxEmptyMembers) ∧
      ∀ x ∈ vs, member.Admits s record x
  | .record name _, v | .reference name, v => record name v
  | .subtypes _ members, v => ∃ m ∈ members, v.runtimeType? = some m.type ∧ record m.type v

/-- **What a record admits** where `room` records may be nested: a record of the type, no undeclared
field, and every field that is on the wire with a value that its layout admits. -/
def Snapshot.RecordConforms (s : Snapshot) : (room : Nat) → TypeName → Value → Prop
  | 0, _, _ => False
  | room + 1, name, v => ∃ fields : FieldMap Value, v = .record name fields ∧
      (∀ x ∈ fields, s.Declares name x.1) ∧
      ∀ f ∈ s.present name, ∃ x, fields.find? f.name = some x ∧
        f.layout.Admits s (s.RecordConforms room) x

/-- **Conformance** of a value to a layout at a version. -/
def Layout.Conforms (root : Layout) (version : Version) (v : Value) : Prop :=
  root.Admits (root.snapshot version) ((root.snapshot version).RecordConforms maxDepth) v

namespace Program

variable {p : Program} {room : Nat} {a : Layout} {v : Value} {name : TypeName}

/-! ### Records without bytes -/

theorem plainSize_pos (h : a.recordName? = none) : 0 < p.plainSize a := by
  cases a with
  | primitive q => exact Primitive.minSize_pos
  | text | list _ | subtypes _ _ =>
    simp only [plainSize]
    split <;> decide
  | nullable _ => exact Nat.one_pos
  | record _ _ | reference _ => cases h

/-- Only a record without bytes has the size zero. -/
theorem weightlessMember_of_hasSize (h : p.HasSize a 0) : p.snapshot.WeightlessMember a := by
  generalize hk : (0 : Nat) = k at h
  -- A size of zero is a sum of zeros: each field on the wire is a record again, and without bytes.
  induction h with
  | plain ha => exact absurd hk (Nat.ne_of_lt (plainSize_pos ha))
  | @record a name size ha _ ih =>
    have hzero : ∀ f ∈ p.present name, 0 = size f.layout := fun f hf =>
      (List.sum_eq_zero_iff.1 hk.symm _ (List.mem_map.2 ⟨f, hf, rfl⟩)).symm
    refine ⟨name, ha, .mk (fun f hf => ?_) fun f hf inner hinner => ?_⟩
    · obtain ⟨inner, hinner, -⟩ := ih f hf (hzero f hf)
      exact Option.isSome_iff_exists.2 ⟨inner, hinner⟩
    · obtain ⟨inner', hinner', hweightless⟩ := ih f hf (hzero f hf)
      cases hinner.symm.trans hinner'
      exact hweightless

/-- A record without bytes has the size zero. -/
theorem hasSize_zero_of_weightless (h : p.snapshot.Weightless name)
    (ha : a.recordName? = some name) : p.HasSize a 0 := by
  induction h generalizing a with
  | @mk name hrecord _ ih =>
    have hsize := HasSize.record (p := p) (fun _ => 0) ha fun f hf => by
      obtain ⟨inner, hinner⟩ := Option.isSome_iff_exists.1 (hrecord f hf)
      exact ih f hf inner hinner hinner
    simpa using hsize

/-- **The bound on lists of members without bytes** is the same for every format: where there are
members at all, their least size is zero exactly if they are records without bytes. -/
theorem not_tooLong_iff {member : Layout} {vs : List Value}
    (hvalid : ∀ x ∈ vs, (p.layoutScript (p.recordScript room) member x).Valid) :
    ¬p.TooLong member vs.length ↔
      (p.snapshot.WeightlessMember member → vs.length ≤ maxEmptyMembers) := by
  cases vs with
  -- Without members there is nothing to count; otherwise the first one shows what the least size
  -- is.
  | nil => exact ⟨fun _ _ => Nat.zero_le _, fun _ h => Nat.not_lt_zero _ h.1⟩
  | cons x vs =>
    have hsize := hasSize_minSize (hvalid x List.mem_cons_self)
    have hzero : p.minSize member = 0 ↔ p.snapshot.WeightlessMember member := by
      constructor
      · intro h
        exact weightlessMember_of_hasSize (h ▸ hsize)
      · rintro ⟨name, hname, hweightless⟩
        exact hsize.unique (hasSize_zero_of_weightless hweightless hname)
    unfold TooLong
    rw [hzero, not_and']
    exact imp_congr_right fun _ => Nat.not_lt

/-! ### Acceptance is conformance -/

/-- **Acceptance between two records** is admission, if acceptance of records is conformance. -/
theorem valid_iff_admits_of (ha : a.Proper p.tagEncoding)
    (hrecord : ∀ name x,
      (p.recordScript room name x).Valid ↔ p.snapshot.RecordConforms room name x) :
    (p.layoutScript (p.recordScript room) a v).Valid ↔
      a.Admits p.snapshot (p.snapshot.RecordConforms room) v := by
  -- By induction on the layout, with the equivalence for records as the hypothesis.
  induction a generalizing v with
  | primitive q => exact Primitive.valid_script_iff
  | text => exact valid_textScript_iff
  | nullable inner ih =>
    obtain ⟨-, -, hinner⟩ := ha
    rw [valid_nullable_iff, ih hinner]
    rfl
  | list member ih =>
    rw [valid_list_iff]
    refine exists_congr fun vs => and_congr_right fun hlist => ?_
    subst hlist
    -- The bound on the count can only be compared once the members are known to be accepted.
    have hmembers : (∀ x ∈ vs, (p.layoutScript (p.recordScript room) member x).Valid) ↔
        ∀ x ∈ vs, member.Admits p.snapshot (p.snapshot.RecordConforms room) x :=
      forall₂_congr fun _ _ => ih ha
    constructor
    · rintro ⟨hcount, hlength, hall⟩
      exact ⟨hlength, (not_tooLong_iff hall).1 hcount, hmembers.1 hall⟩
    · rintro ⟨hlength, hcount, hall⟩
      exact ⟨(not_tooLong_iff (hmembers.2 hall)).2 hcount, hlength, hmembers.2 hall⟩
  | record name fields => exact hrecord name v
  | reference name => exact hrecord name v
  | subtypes group members =>
    obtain ⟨-, htypes, hmembers⟩ := ha
    rw [valid_subtypes_iff htypes]
    refine exists_congr fun m => and_congr_right fun hm => and_congr_right fun _ => ?_
    rw [layoutScript_of_recordName? (hmembers m hm).2]
    exact hrecord m.type v

/-- **Acceptance of records** is conformance, by induction on the records that may be nested. -/
theorem valid_recordScript_iff_conforms (hp : p.Proper) :
    (p.recordScript room name v).Valid ↔ p.snapshot.RecordConforms room name v := by
  induction room generalizing name v with
  | zero => exact iff_of_false not_valid_recordScript_zero id
  | succ room ih =>
    rw [valid_recordScript_succ_iff, valid_bodyScript_iff]
    -- Field by field, with the room that is left inside.
    refine exists_congr fun fields => and_congr_right fun hrecord => ?_
    subst hrecord
    refine and_congr (forall₂_congr fun x _ => declares_iff.symm) ?_
    refine forall₂_congr fun f hf => exists_congr fun x => and_congr_right fun _ => ?_
    exact valid_iff_admits_of (hp.present hf) fun _ _ => ih

/-- **What an encoder accepts.** The script of a value is valid exactly when the value conforms. -/
theorem valid_iff_admits (hp : p.Proper) (ha : a.Proper p.tagEncoding) :
    (p.layoutScript (p.recordScript room) a v).Valid ↔
      a.Admits p.snapshot (p.snapshot.RecordConforms room) v :=
  valid_iff_admits_of ha fun _ _ => valid_recordScript_iff_conforms hp

end Program

end SchemaWire

import Mathlib.Algebra.BigOperators.Ring.List
import SchemaWire.Proofs.Layout.OptionalBooleans
import SchemaWire.Proofs.Program.Measuring
/-!
# One layout in two formats

Two formats that have the same varints differ in two things: the byte order, and whether a boolean
that may be missing is packed into one byte. A program that packs booleans and the same program in
the other format (`Program.Reformats`) accept the same values, and for a value that is accepted

* the other program takes one byte more for every boolean that the value holds where one may be
  missing, or none if it packs booleans, too;
* if it takes none more, its steps are the same.

`Script.Unpacks` is this relation between two scripts. It is closed under all that a script is put
together with, so it is proved layout by layout, and for records by induction on the room for them
(`Program.Reformats.unpacks_script`). The byte order is no matter of the steps, and no step writes
more bytes for it (`Script.length_bytes_congr`).
-/

namespace SchemaWire

/-! ### Scripts that differ in booleans -/

namespace Script

variable {format format' : WireFormat} {script script' more more' : Script} {n m : Nat}

/-- **The second script takes `n` bytes more** than the first one, if either of them is valid. -/
structure Unpacks (script script' : Script) (n : Nat) : Prop where
  valid_iff : script'.Valid ↔ script.Valid
  length : script.Valid → ∀ format, (script'.bytes format).length = (script.bytes format).length + n
  /-- Without additional bytes it is the same script. -/
  eq_of_zero : script.Valid → n = 0 → script' = script

namespace Unpacks

/-- A script does not differ from itself. -/
theorem of_valid_imp (h : script.Valid → n = 0) : Unpacks script script n :=
  ⟨.rfl, fun hvalid _ => by rw [h hvalid, Nat.add_zero], fun _ _ => rfl⟩

theorem refl (script : Script) : Unpacks script script 0 := of_valid_imp fun _ => rfl

/-- Of scripts that are not valid nothing is asked. -/
theorem of_not_valid (h : ¬script.Valid) (h' : ¬script'.Valid) : Unpacks script script' n :=
  ⟨iff_of_false h' h, fun hvalid => absurd hvalid h, fun hvalid => absurd hvalid h⟩

theorem append (h : Unpacks script script' n) (hmore : Unpacks more more' m) :
    Unpacks (script ++ more) (script' ++ more') (n + m) where
  valid_iff := by rw [valid_append, valid_append, h.valid_iff, hmore.valid_iff]
  -- Both parts are valid, so both lengths are known.
  length hvalid format := by
    rw [valid_append] at hvalid
    rw [bytes_append, bytes_append, List.length_append, List.length_append,
      h.length hvalid.1, hmore.length hvalid.2]
    omega
  eq_of_zero hvalid hzero := by
    rw [valid_append] at hvalid
    rw [h.eq_of_zero hvalid.1 (by omega), hmore.eq_of_zero hvalid.2 (by omega)]

theorem cons (step : Step) (h : Unpacks script script' n) :
    Unpacks (step :: script) (step :: script') n := by
  have := (refl [step]).append h
  rwa [Nat.zero_add] at this

theorem flatMap {α : Type} {xs : List α} {f f' : α → Script} {bytes : α → Nat}
    (h : ∀ x ∈ xs, Unpacks (f x) (f' x) (bytes x)) :
    Unpacks (xs.flatMap f) (xs.flatMap f') (xs.map bytes).sum := by
  induction xs with
  | nil => exact refl []
  | cons x xs ih =>
    obtain ⟨hx, hxs⟩ := List.forall_mem_cons.1 h
    rw [List.flatMap_cons, List.flatMap_cons, List.map_cons, List.sum_cons]
    exact hx.append (ih hxs)

end Unpacks

/-- The byte order does not show in the number of bytes. -/
theorem length_bytes_congr (h : format'.varintLengths = format.varintLengths) (script : Script) :
    (script.bytes format').length = (script.bytes format).length := by
  -- Only the order of the bytes can differ, which has no influence on how many there are.
  induction script with
  | nil => rfl
  | cons step script ih =>
    rw [bytes_cons, bytes_cons, List.length_append, List.length_append, ih]
    congr 1
    cases step with
    | length n =>
      simp only [Step.bytes, h]
      split
      · rfl
      · rw [ByteOrder.length_bytes, ByteOrder.length_bytes]
    | fixed width n =>
      exact (ByteOrder.length_bytes _ _ _).trans (ByteOrder.length_bytes _ _ _).symm
    | _ => rfl

/-- Apart from the byte order and the form of lengths no step depends on the format. -/
theorem bytes_congr (horder : format'.byteOrder = format.byteOrder)
    (hlengths : format'.varintLengths = format.varintLengths) (script : Script) :
    script.bytes format' = script.bytes format := by
  refine List.flatMap_congr fun step _ => ?_
  cases step <;> simp only [Step.bytes, horder, hlengths]

end Script

namespace Program

open Script (Unpacks)

variable {p q : Program} {a : Layout} {name : TypeName} {v : Value}
  {call call' : TypeName → Value → Script}

/-- **One program in the format of another one** that packs booleans, the varints being the same. -/
structure Reformats (q p : Program) : Prop where
  version : q.version = p.version
  tagEncoding : q.tagEncoding = p.tagEncoding
  records : q.records = p.records
  root : q.root = p.root
  varintLengths : q.format.varintLengths = p.format.varintLengths
  varintIntegers : q.format.varintIntegers = p.format.varintIntegers
  packed : p.format.packedBooleans = true

/-- The bytes that a boolean takes where it may be missing, beyond the one that packing leaves. -/
def presenceSize (q : Program) : Nat := if q.format.packedBooleans then 0 else 1

/-- The bytes that a program needs for the booleans of a value that may be missing. -/
def presenceBytes (q p : Program) (a : Layout) (v : Value) : Nat :=
  q.presenceSize * p.snapshot.optionalBooleans a v

namespace Reformats

theorem fieldsOf_eq (h : q.Reformats p) (name : TypeName) : q.fieldsOf name = p.fieldsOf name := by
  rw [fieldsOf, fieldsOf, h.records]

theorem present_eq (h : q.Reformats p) (name : TypeName) : q.present name = p.present name := by
  rw [present, present, h.fieldsOf_eq, h.version]

theorem isVarint_eq (h : q.Reformats p) (r : Primitive) :
    r.isVarint q.format = r.isVarint p.format := by
  rw [Primitive.isVarint, Primitive.isVarint, h.varintIntegers]

theorem primitiveScript_eq (h : q.Reformats p) (r : Primitive) (v : Value) :
    r.script q.format v = r.script p.format v := by
  unfold Primitive.script Primitive.step
  rw [h.isVarint_eq]

/-- No size of a layout depends on the byte order or on packing. -/
theorem measuresAs (h : q.Reformats p) : q.MeasuresAs p id id where
  key_injective := Function.injective_id
  recordName? _ := Option.map_id'.symm
  plainSize a _ := by
    cases a with
    | primitive r => simp only [id, plainSize, Primitive.minSize, h.isVarint_eq]
    | _ => simp only [id, plainSize, h.varintLengths, h.tagEncoding]
  present name := congrArg (List.map (·.layout)) (h.present_eq name)
  count := congrArg List.length h.records

theorem tooLong_iff (h : q.Reformats p) (member : Layout) (count : Nat) :
    q.TooLong member count ↔ p.TooLong member count := by
  have hsize : q.minSize member = p.minSize member := h.measuresAs.minSize_eq member
  rw [TooLong, TooLong, hsize]

/-! ### Between two records -/

/-- A boolean takes a byte of its own if it is not packed. -/
theorem unpacks_packed (h : q.Reformats p) {r : Primitive} (hbool : r.kind = .bool) (v : Value) :
    Unpacks (p.layoutScript call (.nullable (.primitive r)) v)
      (q.layoutScript call' (.nullable (.primitive r)) v)
      (q.presenceBytes p (.nullable (.primitive r)) v) := by
  have hp : p.packed? (.primitive r) = some r.wrapped := by simp [packed?, h.packed, hbool]
  rw [layoutScript_nullable_of_packed hp]
  unfold presenceBytes presenceSize
  cases hformat : q.format.packedBooleans with
  -- Both formats pack, so both write the same byte.
  | true =>
    have hq : q.packed? (.primitive r) = some r.wrapped := by simp [packed?, hformat, hbool]
    rw [layoutScript_nullable_of_packed hq, if_pos rfl, Nat.zero_mul]
    exact Unpacks.refl _
  -- Only the lower level writes a presence byte.
  | false =>
    have hq : q.packed? (.primitive r) = none := by simp [packed?, hformat]
    rw [if_neg (by decide), Nat.one_mul]
    by_cases hnull : v.isNull = true
    · rw [layoutScript_nullable_of_isNull hq hnull, packedScript_of_isNull hnull,
        Snapshot.optionalBooleans_of_isNull hnull]
      exact Unpacks.refl _
    rw [layoutScript_nullable_of_not_isNull hq hnull, layoutScript]
    by_cases hvalid : (r.script q.format v).Valid
    · -- The boolean itself takes one byte in either form.
      obtain ⟨⟨k, b⟩, rfl, hkind⟩ := Primitive.valid_script_iff.1 hvalid
      obtain rfl : k = .bool := hkind.trans hbool
      have hvarint : r.isVarint q.format = false := by
        cases hr : r.isVarint q.format with
        | false => rfl
        | true =>
          have := Primitive.isInteger_of_isVarint hr
          rw [hbool] at this
          cases this
      have hcount : p.snapshot.optionalBooleans (.nullable (.primitive r)) (r.box ⟨.bool, b⟩) =
          1 := by
        unfold Primitive.box
        cases r.wrapped <;> simp [Snapshot.optionalBooleans, Layout.isOptionalBoolean, hbool]
      rw [Primitive.script_box hkind, packedScript_box, hcount]
      refine ⟨by simp [Primitive.step, hvarint, Step.Valid], fun _ format => ?_,
        fun _ hzero => absurd hzero Nat.one_ne_zero⟩
      simp [Primitive.step, hvarint, Step.bytes, hbool, ScalarKind.width]
    · refine Unpacks.of_not_valid (fun hpacked => ?_) (fun h => hvalid (Script.valid_cons.1 h).2)
      rcases (valid_packedScript_iff hbool).1 hpacked with hnull' | hs
      · exact hnull hnull'
      · exact hvalid (Primitive.valid_script_iff.2 hs)

/-- A nullable around anything else begins with the same byte in both formats. -/
theorem unpacks_nullable {inner : Layout} (hinner : inner.isNullable = false)
    (hbool : (Layout.nullable inner).isOptionalBoolean = false)
    (ih : ∀ v, Unpacks (p.layoutScript call inner v) (q.layoutScript call' inner v)
      (q.presenceBytes p inner v)) (v : Value) :
    Unpacks (p.layoutScript call (.nullable inner) v) (q.layoutScript call' (.nullable inner) v)
      (q.presenceBytes p (.nullable inner) v) := by
  -- The format is of no matter: not a boolean, so packed in neither.
  have hpacked (p : Program) : p.packed? inner = none := by
    cases hp : p.packed? inner with
    | none => rfl
    | some wrapped =>
      obtain ⟨r, rfl, hkind, -⟩ := packed?_eq_some hp
      simp [Layout.isOptionalBoolean, hkind] at hbool
  by_cases hnull : v.isNull = true
  · rw [layoutScript_nullable_of_isNull (hpacked p) hnull,
      layoutScript_nullable_of_isNull (hpacked q) hnull, presenceBytes,
      Snapshot.optionalBooleans_of_isNull hnull]
    exact Unpacks.refl _
  · rw [layoutScript_nullable_of_not_isNull (hpacked p) hnull,
      layoutScript_nullable_of_not_isNull (hpacked q) hnull, presenceBytes,
      Snapshot.optionalBooleans_nullable hinner hbool]
    exact (ih v).cons _

theorem unpacks_list (h : q.Reformats p) {member : Layout}
    (ih : ∀ v, Unpacks (p.layoutScript call member v) (q.layoutScript call' member v)
      (q.presenceBytes p member v)) (v : Value) :
    Unpacks (p.layoutScript call (.list member) v) (q.layoutScript call' (.list member) v)
      (q.presenceBytes p (.list member) v) := by
  -- Lists that are refused have no valid script at either level.
  by_cases hlist : ∃ vs, v = .list vs ∧ ¬p.TooLong member vs.length
  · obtain ⟨vs, rfl, hcount⟩ := hlist
    have hsum : q.presenceBytes p (.list member) (.list vs) =
        (vs.map (q.presenceBytes p member)).sum := by
      unfold presenceBytes
      rw [Snapshot.optionalBooleans_list, ← List.sum_map_mul_left]
      rfl
    rw [layoutScript_list hcount, layoutScript_list (mt (h.tooLong_iff member _).1 hcount), hsum]
    exact (Unpacks.flatMap fun x _ => ih x).cons _
  · refine Unpacks.of_not_valid (fun hvalid => ?_) (fun hvalid => ?_)
    · obtain ⟨vs, hv, hcount, -⟩ := valid_list_iff.1 hvalid
      exact hlist ⟨vs, hv, hcount⟩
    · obtain ⟨vs, hv, hcount, -⟩ := valid_list_iff.1 hvalid
      exact hlist ⟨vs, hv, mt (h.tooLong_iff member _).2 hcount⟩

theorem tagStep_eq (h : q.Reformats p) (tag : UInt32) : q.tagStep tag = p.tagStep tag := by
  rw [tagStep, tagStep, h.tagEncoding]

/-- A member of a group is a record of its type, so the fields that count are those of the type. -/
theorem unpacks_subtypes (h : q.Reformats p) {group : GroupName} {members : List (Member Layout)}
    (htypes : (members.map (·.type)).Nodup)
    (ih : ∀ m ∈ members, ∀ v, Unpacks (p.layoutScript call m.layout v)
      (q.layoutScript call' m.layout v) (q.presenceBytes p m.layout v)) (v : Value) :
    Unpacks (p.layoutScript call (.subtypes group members) v)
      (q.layoutScript call' (.subtypes group members) v)
      (q.presenceBytes p (.subtypes group members) v) := by
  -- A value that no member takes has no valid script at either level.
  by_cases hmember : ∃ m ∈ members, v.runtimeType? = some m.type
  · obtain ⟨m, hm, hv⟩ := hmember
    have hbytes : q.presenceBytes p (.subtypes group members) v = q.presenceBytes p m.layout v := by
      cases v <;> cases hv
      simp only [presenceBytes, Snapshot.optionalBooleans]
    rw [layoutScript_subtypes htypes hm hv, layoutScript_subtypes htypes hm hv, h.tagStep_eq,
      hbytes]
    exact (ih m hm v).cons _
  · refine Unpacks.of_not_valid (fun hvalid => ?_) (fun hvalid => ?_)
    · obtain ⟨m, hm, hv, -⟩ := (valid_subtypes_iff htypes).1 hvalid
      exact hmember ⟨m, hm, hv⟩
    · obtain ⟨m, hm, hv, -⟩ := (valid_subtypes_iff htypes).1 hvalid
      exact hmember ⟨m, hm, hv⟩

/-- **Between two records** scripts differ in booleans, if they do for the records. -/
theorem unpacks_layoutScript (h : q.Reformats p) (ha : a.Proper p.tagEncoding)
    (hcall : ∀ b name, b.recordName? = some name → ∀ v,
      Unpacks (call name v) (call' name v) (q.presenceBytes p b v)) (v : Value) :
    Unpacks (p.layoutScript call a v) (q.layoutScript call' a v) (q.presenceBytes p a v) := by
  -- By induction on the layout; a packed boolean is the one place where the two differ.
  induction a generalizing v with
  | primitive r =>
    rw [layoutScript, layoutScript, h.primitiveScript_eq]
    refine Unpacks.of_valid_imp fun hvalid => ?_
    obtain ⟨s, rfl, -⟩ := Primitive.valid_script_iff.1 hvalid
    unfold presenceBytes Primitive.box
    cases r.wrapped <;> simp [Snapshot.optionalBooleans, Layout.isOptionalBoolean]
  | text =>
    refine Unpacks.of_valid_imp fun hvalid => ?_
    obtain ⟨t, rfl, -⟩ := valid_textScript_iff.1 hvalid
    exact Nat.mul_zero _
  | nullable inner ih =>
    obtain ⟨hinner, -, hproper⟩ := ha
    cases hbool : (Layout.nullable inner).isOptionalBoolean with
    | false => exact unpacks_nullable hinner hbool (ih hproper) v
    | true =>
      cases inner with
      | primitive r => exact h.unpacks_packed (of_decide_eq_true hbool) v
      | _ => cases hbool
  | list member ih => exact h.unpacks_list (ih ha) v
  | record name fields | reference name => exact hcall _ name rfl v
  | subtypes group members ih =>
    obtain ⟨-, htypes, hmembers⟩ := ha
    refine h.unpacks_subtypes htypes (fun m hm v => ?_) v
    -- Every member is a record, and those are covered by the assumption.
    have hname := (hmembers m hm).2
    rw [layoutScript_of_recordName? hname, layoutScript_of_recordName? hname]
    exact hcall _ _ hname v

/-! ### Records -/

theorem unpacks_bodyScript (h : q.Reformats p) (hp : p.Proper)
    (hfields : ∀ f ∈ p.present name, ∀ v, Unpacks (p.layoutScript call f.layout v)
      (q.layoutScript call' f.layout v) (q.presenceBytes p f.layout v)) (a : Layout) (v : Value) :
    Unpacks (p.bodyScript call name v) (q.bodyScript call' name v) (q.presenceBytes p a v) := by
  -- Only records of this name that declare all their fields have a valid script.
  by_cases hrecord : ∃ fields : FieldMap Value, v = .record name fields ∧
      ∀ x ∈ fields, ∃ f ∈ p.fieldsOf name, f.name = x.1
  · obtain ⟨fields, rfl, hdeclared⟩ := hrecord
    have hsum : q.presenceBytes p a (.record name fields) =
        ((p.present name).map fun f =>
          q.presenceSize * p.snapshot.optionalBooleansAt fields f).sum := by
      unfold presenceBytes
      rw [Snapshot.optionalBooleans_record (hp.nodup_present name), ← List.sum_map_mul_left]
      rfl
    rw [bodyScript_record hdeclared, bodyScript_record (by rwa [h.fieldsOf_eq]), h.present_eq, hsum]
    -- A field that is missing makes both scripts fail.
    refine Unpacks.flatMap fun f hf => ?_
    unfold Snapshot.optionalBooleansAt
    cases FieldMap.find? fields f.name with
    | some x => exact hfields f hf x
    | none => exact Unpacks.of_not_valid Script.not_valid_fail Script.not_valid_fail
  · refine Unpacks.of_not_valid (fun hvalid => ?_) (fun hvalid => ?_)
    · obtain ⟨fields, hv, hdeclared, -⟩ := valid_bodyScript_iff.1 hvalid
      exact hrecord ⟨fields, hv, hdeclared⟩
    · obtain ⟨fields, hv, hdeclared, -⟩ := valid_bodyScript_iff.1 hvalid
      rw [h.fieldsOf_eq] at hdeclared
      exact hrecord ⟨fields, hv, hdeclared⟩

/-- **Records differ in booleans**, by induction on how many may be nested in them. -/
theorem unpacks_recordScript (h : q.Reformats p) (hp : p.Proper) (room : Nat) (name : TypeName)
    (a : Layout) (v : Value) :
    Unpacks (p.recordScript room name v) (q.recordScript room name v) (q.presenceBytes p a v) := by
  -- By induction on the room for nested records, which both programs use up alike.
  induction room generalizing name a v with
  | zero => exact Unpacks.of_not_valid not_valid_recordScript_zero not_valid_recordScript_zero
  | succ room ih =>
    have hbody : Unpacks (p.bodyScript (p.recordScript room) name v)
        (q.bodyScript (q.recordScript room) name v) (q.presenceBytes p a v) := by
      refine h.unpacks_bodyScript hp (fun f hf => ?_) a v
      exact h.unpacks_layoutScript (hp.present hf) fun b other _ x => ih other b x
    rw [recordScript, recordScript]
    exact (hbody.append (Unpacks.refl [.leave])).cons _

/-- **One value in two formats.** -/
theorem unpacks_script (h : q.Reformats p) (hp : p.Proper) (room : Nat) (v : Value) :
    Unpacks (p.script room v) (q.script room v) (q.presenceBytes p p.root v) := by
  rw [script, script, h.root]
  exact h.unpacks_layoutScript hp.root (fun b name _ => h.unpacks_recordScript hp room name b) v

end Reformats

end Program

end SchemaWire

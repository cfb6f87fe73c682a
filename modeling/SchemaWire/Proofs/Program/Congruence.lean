import SchemaWire.Proofs.Program.Scripts
import SchemaWire.Proofs.Wire.Growing
import SchemaWire.Proofs.Wire.LeftOpen
/-!
# What goes through the ways of putting a program together

Scripts and decoders are put together from pieces in few ways: one behind another, and inside a
record. A relation that holds of pieces and goes through these ways holds of everything that a
program writes or reads, with any amount of room for records on the one side and less of it on the
other.

* `Script.Congruence R` — the closure conditions for a relation `R room full cut` between scripts,
  where there is `room` for records in `cut` and no less in `full`. All programs keep to it
  (`Script.Congruence.script`).
* `Decoder.Congruence R` — the same for decoders (`Decoder.Congruence.decode`).

The induction over layouts and over the room is done here, once; what is to be shown of a particular
relation is that it is a congruence. A property of scripts is a relation that ignores one side.
-/

namespace SchemaWire

/-! ### Scripts -/

/-- A step that writes a piece of a value or refuses it: it stays in its record, and does not fail
with an overflow but for want of room. -/
def Step.IsPiece (step : Step) : Prop :=
  step.Stays ∧ ∀ e, step.fault? = some e → e.isOverflow = false

/-- **A congruence of scripts**, by the room that there is for records in the second one. -/
structure Script.Congruence (R : Nat → Script → Script → Prop) : Prop where
  nil : ∀ {room}, R room [] []
  single : ∀ {room} {step : Step}, step.IsPiece → R room [step] [step]
  append : ∀ {room full cut full' cut'}, R room full cut → R room full' cut' →
    R room (full ++ full') (cut ++ cut')
  nested : ∀ {room full cut}, R room full cut →
    R (room + 1) (.enter :: (full ++ [.leave])) (.enter :: (cut ++ [.leave]))
  /-- Where there is no room, a record is refused. -/
  deep : ∀ {full cut}, R 0 full cut →
    R 0 (.enter :: (full ++ [.leave])) [.fail (.depthExceeded maxDepth)]

namespace Script.Congruence

variable {R : Nat → Script → Script → Prop} {room : Nat} {p : Program}
  {call call' : TypeName → Value → Script} {a : Layout} {v : Value} {step : Step}
  {full cut : Script}

theorem cons (hR : Congruence R) (hstep : step.IsPiece) (h : R room full cut) :
    R room (step :: full) (step :: cut) :=
  hR.append (hR.single hstep) h

theorem flatMap (hR : Congruence R) {α : Type} {xs : List α} {f g : α → Script}
    (h : ∀ x ∈ xs, R room (f x) (g x)) : R room (xs.flatMap f) (xs.flatMap g) := by
  induction xs with
  | nil => exact hR.nil
  | cons x xs ih =>
    obtain ⟨hx, hxs⟩ := List.forall_mem_cons.1 h
    exact hR.append hx (ih hxs)

theorem fail (hR : Congruence R) {e : EncodeError} (he : e.isOverflow = false) :
    R room [.fail e] [.fail e] := by
  refine hR.single ⟨trivial, fun e' he' => ?_⟩
  cases he'
  exact he

theorem isPiece_raw (bs : List UInt8) : (Step.raw bs).IsPiece := ⟨trivial, nofun⟩

theorem isPiece_length (n : Nat) : (Step.length n).IsPiece :=
  ⟨trivial, fun _ => isOverflow_of_fault?_length⟩

theorem isPiece_tagStep (tag : UInt32) : (p.tagStep tag).IsPiece := by
  unfold Program.tagStep
  cases p.tagEncoding <;> exact ⟨trivial, nofun⟩

theorem primitive (hR : Congruence R) (q : Primitive) (format : WireFormat) :
    R room (q.script format v) (q.script format v) := by
  unfold Primitive.script
  split
  · -- A scalar is written in one step that opens nothing.
    refine hR.single ?_
    unfold Primitive.step
    split <;> exact ⟨trivial, nofun⟩
  · next e he =>
    refine hR.fail ?_
    unfold Primitive.unbox at he
    simp only at he
    split at he
    · split at he <;> cases he
      rfl
    · split at he <;> cases he
      rfl
    · cases he
      rfl
    · cases he
      rfl

theorem textScript (hR : Congruence R) :
    R room (Program.textScript v) (Program.textScript v) := by
  unfold Program.textScript
  split
  · exact hR.cons (isPiece_length _) (hR.single (isPiece_raw _))
  · exact hR.fail rfl
  · exact hR.fail rfl

theorem packedScript (hR : Congruence R) (wrapped : Bool) :
    R room (Program.packedScript wrapped v) (Program.packedScript wrapped v) := by
  unfold Program.packedScript
  split
  all_goals first
    | exact hR.single (isPiece_raw _)
    | exact hR.fail rfl

/-- **A value keeps to a congruence, if the records in it do.** -/
theorem layoutScript (hR : Congruence R) (h : ∀ name x, R room (call name x) (call' name x)) :
    R room (p.layoutScript call a v) (p.layoutScript call' a v) := by
  induction a generalizing v with
  | primitive q => exact hR.primitive q p.format
  | text => exact hR.textScript
  | nullable inner ih =>
    rw [Program.layoutScript, Program.layoutScript]
    split
    · exact hR.packedScript _
    · split
      · exact hR.single (isPiece_raw _)
      · exact hR.cons (isPiece_raw _) ih
  | list member ih =>
    cases v with
    | list vs =>
      rw [Program.layoutScript, Program.layoutScript]
      split
      · exact hR.fail rfl
      · exact hR.cons (isPiece_length _) (hR.flatMap fun x _ => ih)
    | _ => exact hR.fail rfl
  | record name fields => exact h name v
  | reference name => exact h name v
  | subtypes group members ih =>
    rw [Program.layoutScript, Program.layoutScript]
    split
    · exact hR.fail rfl
    · next type _ =>
      -- Which member answers is a matter of types, and so the same on both sides.
      have hmember : Option.Rel (R room) (p.memberScript? call members type v)
          (p.memberScript? call' members type v) :=
        Program.optionRel_memberScript? (List.forall₂_same.2 fun m hm =>
          ⟨Iff.rfl, hR.cons (isPiece_tagStep m.tag) (ih m hm)⟩)
      generalize p.memberScript? call members type v = script at hmember ⊢
      generalize p.memberScript? call' members type v = script' at hmember ⊢
      cases hmember with
      | some hmember => exact hmember
      | none => exact hR.fail rfl

theorem bodyScript (hR : Congruence R) (call call' : TypeName → Value → Script)
    (h : ∀ name x, R room (call name x) (call' name x)) (name : TypeName) :
    R room (p.bodyScript call name v) (p.bodyScript call' name v) := by
  unfold Program.bodyScript
  split
  · split
    · split
      · exact hR.fail rfl
      · -- The fields that are on the wire are the same on both sides, one behind another.
        refine hR.flatMap fun f _ => ?_
        split
        · exact hR.layoutScript h
        · exact hR.fail rfl
    · exact hR.fail rfl
  · exact hR.fail rfl
  · exact hR.fail rfl

/-- **A record keeps to a congruence**, by induction on the room that there is in the larger of two
scripts. -/
theorem recordScript (hR : Congruence R) {big : Nat} (h : room ≤ big) (name : TypeName)
    (v : Value) :
    R room (p.recordScript big name v) (p.recordScript room name v) := by
  induction big generalizing room name v with
  | zero =>
    obtain rfl := Nat.le_zero.1 h
    exact hR.fail rfl
  | succ big ih =>
    cases room with
    -- One script opens the record and the other one refuses it.
    | zero => exact hR.deep (hR.bodyScript _ _ (ih (Nat.zero_le big)) name)
    | succ room => exact hR.nested (hR.bodyScript _ _ (ih (Nat.le_of_succ_le_succ h)) name)

/-- **Every program keeps to every congruence.** -/
theorem script (hR : Congruence R) (p : Program) {big : Nat} (h : room ≤ big) (v : Value) :
    R room (p.script big v) (p.script room v) :=
  hR.layoutScript (hR.recordScript h)

end Script.Congruence

theorem Script.neverOverflows_congruence :
    Congruence fun _ _ cut => cut.NeverOverflows where
  nil := Valid.neverOverflows valid_nil
  single hstep := neverOverflows_cons.2 ⟨hstep.2, Valid.neverOverflows valid_nil⟩
  append h h' := neverOverflows_append.2 ⟨h, h'⟩
  nested h := neverOverflows_cons.2 ⟨nofun, neverOverflows_append.2
    ⟨h, Valid.neverOverflows (valid_cons.2 ⟨trivial, valid_nil⟩)⟩⟩
  deep _ := neverOverflows_fail rfl

/-- **That a value has no encoding** is never reported as an overflow. -/
theorem Program.neverOverflows_script (p : Program) (room : Nat) (v : Value) :
    (p.script room v).NeverOverflows :=
  Script.neverOverflows_congruence.script p (Nat.le_refl room) v

/-! ### Decoders -/

/-- **A congruence of decoders**, by the room that there is for records in the second one. -/
structure Decoder.Congruence (R : Nat → {α : Type} → Decoder α → Decoder α → Prop) : Prop where
  flat : ∀ {room} {α : Type} {d : Decoder α}, d.Flat → R room d d
  bind : ∀ {room} {α β : Type} {full cut : Decoder α} {f g : α → Decoder β}, R room full cut →
    (∀ x, R room (f x) (g x)) → R room (full >>= f) (cut >>= g)
  nested : ∀ {room} {α : Type} {full cut : Decoder α}, R room full cut →
    R (room + 1) (do Reader.descend; let x ← full; Reader.ascend; return x)
      (do Reader.descend; let x ← cut; Reader.ascend; return x)
  /-- Where there is no room, a record is refused. -/
  deep : ∀ {α : Type} {full cut : Decoder α}, R 0 full cut →
    R 0 (do Reader.descend; let x ← full; Reader.ascend; return x)
      (throw (.depthExceeded maxDepth))

open Decoder

theorem Primitive.flat_decode (q : Primitive) (format : WireFormat) : (q.decode format).Flat := by
  unfold Primitive.decode
  split
  · exact (flat_readGroups _ _ _).bind fun u => (flat_ofExcept _).map q.box
  · exact (flat_readFixed _).bind fun n => (flat_ofExcept _).map q.box

namespace Program

theorem flat_decodeText : decodeText.Flat := by
  unfold decodeText
  refine flat_readLength.bind fun n => (flat_take n).bind fun bytes => ?_
  split
  · exact Flat.pure _
  · exact Flat.throw _

theorem flat_decodePacked (wrapped : Bool) : (decodePacked wrapped).Flat := by
  unfold decodePacked
  refine flat_readByte.bind fun byte => ?_
  split
  · exact Flat.pure _
  · exact Flat.pure _
  · exact Flat.pure _
  · exact Flat.throw _

theorem flat_readTag (p : Program) : p.readTag.Flat := by
  unfold readTag
  cases p.tagEncoding with
  | u8 => exact (flat_readFixed 1).map UInt32.ofNat
  | u16 => exact (flat_readFixed 2).map UInt32.ofNat
  | varint => exact (flat_readGroups _ _ _).map UInt64.toUInt32

end Program

namespace Decoder.Congruence

variable {R : Nat → {α : Type} → Decoder α → Decoder α → Prop} {room : Nat} {p : Program}
  {call call' : TypeName → Decoder Value} {a : Layout}

theorem repeatInto (hR : Congruence R) {α : Type} {full cut : Decoder α} (h : R room full cut)
    (n : Nat) (done : List α) : R room (full.repeatInto n done) (cut.repeatInto n done) := by
  induction n generalizing done with
  | zero => exact hR.flat (Flat.pure done.reverse)
  | succ n ih => exact hR.bind h fun x => ih (x :: done)

/-- **A value keeps to a congruence, if the records in it do.** -/
theorem decodeLayout (hR : Congruence R) (h : ∀ name, R room (call name) (call' name)) :
    R room (p.decodeLayout call a) (p.decodeLayout call' a) := by
  induction a with
  | primitive q => exact hR.flat (q.flat_decode p.format)
  | text => exact hR.flat Program.flat_decodeText
  | nullable inner ih =>
    rw [Program.decodeLayout, Program.decodeLayout]
    cases p.packed? inner with
    | some wrapped => exact hR.flat (Program.flat_decodePacked wrapped)
    | none =>
      refine hR.bind (hR.flat flat_readByte) fun byte => ?_
      split
      · exact hR.flat (Flat.pure _)
      · split
        · exact ih
        · exact hR.flat (Flat.throw _)
  | list member ih =>
    rw [Program.decodeLayout, Program.decodeLayout]
    refine hR.bind (hR.flat flat_readLength) fun count => ?_
    -- All that the limit depends on is how many bytes are left, wherever the reader is.
    have hmembers (remaining : Nat) : R room
        (if count ≤ p.countLimit member remaining then
          (do return Value.list (← Decoder.replicate count (p.decodeLayout call member)))
        else throw (.listTooLong count (p.countLimit member remaining)))
        (if count ≤ p.countLimit member remaining then
          (do return Value.list (← Decoder.replicate count (p.decodeLayout call' member)))
        else throw (.listTooLong count (p.countLimit member remaining))) := by
      split
      · exact hR.bind (hR.repeatInto ih count []) fun vs => hR.flat (Flat.pure (Value.list vs))
      · exact hR.flat (Flat.throw _)
    have hlimit := hR.bind (hR.flat (flat_look Reader.remaining fun _ _ => rfl)) hmembers
    exact hlimit
  | record name fields => exact h name
  | reference name => exact h name
  | subtypes group members ih =>
    rw [Program.decodeLayout, Program.decodeLayout]
    refine hR.bind (hR.flat p.flat_readTag) fun tag => ?_
    have hmember := Program.optionRel_decodeMember?
      (List.forall₂_same.2 fun m hm => ⟨rfl, ih m hm⟩) tag
    generalize p.decodeMember? call members tag = d at hmember ⊢
    generalize p.decodeMember? call' members tag = d' at hmember ⊢
    cases hmember with
    | some hmember => exact hmember
    | none => exact hR.flat (Flat.throw _)

theorem decodeFields (hR : Congruence R) {fields : List (Field Layout)}
    (h : ∀ name, R room (call name) (call' name)) (done : FieldMap Value) :
    R room (p.decodeFields call fields done) (p.decodeFields call' fields done) := by
  induction fields generalizing done with
  | nil => exact hR.flat (Flat.pure done)
  | cons f fields ih => exact hR.bind (hR.decodeLayout h) fun v => ih _

theorem decodeBody (hR : Congruence R) (call call' : TypeName → Decoder Value)
    (h : ∀ name, R room (call name) (call' name)) (name : TypeName) :
    R room (p.decodeBody call name) (p.decodeBody call' name) :=
  hR.bind (hR.decodeFields h []) fun _ => hR.flat (Flat.pure _)

/-- **A record keeps to a congruence**, by induction on the room that there is in the larger of two
decoders. -/
theorem decodeRecord (hR : Congruence R) {big : Nat} (h : room ≤ big) (name : TypeName) :
    R room (p.decodeRecord big name) (p.decodeRecord room name) := by
  -- Rooms go down together, until the smaller one is used up.
  induction big generalizing room name with
  | zero =>
    obtain rfl := Nat.le_zero.1 h
    exact hR.flat (Flat.throw _)
  | succ big ih =>
    cases room with
    | zero => exact hR.deep (hR.decodeBody _ _ (ih (Nat.zero_le big)) name)
    | succ room => exact hR.nested (hR.decodeBody _ _ (ih (Nat.le_of_succ_le_succ h)) name)

/-- **Every program keeps to every congruence.** -/
theorem decode (hR : Congruence R) (p : Program) {big : Nat} (h : room ≤ big) :
    R room (p.decodeLayout (p.decodeRecord big) p.root)
      (p.decodeLayout (p.decodeRecord room) p.root) :=
  hR.decodeLayout (hR.decodeRecord h)

end Decoder.Congruence

end SchemaWire

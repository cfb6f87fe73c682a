import SchemaWire.Proofs.Program.Congruence
import SchemaWire.Proofs.Program.Locality
/-!
# A program that counts the records that are open

A program hands down how many records may still be opened. `Program.encodeCounting` and
`Program.decodeCounting` leave this to the cursor, which is asked whenever a record is opened and
told whenever one is closed. Nothing but `fuel`, of which there may be as much as one likes, bounds
how deeply they go by themselves.

Both ways of counting come to the same, for all values and all inputs, whether they succeed or fail
(`Program.encodeCounting_eq`, `Program.decodeCounting_eq`), and what succeeds leaves the cursor at
the depth where it stood (`Program.depth_of_encode`, `Program.depth_of_decode`).
-/

namespace SchemaWire

namespace Program

variable {p : Program} {room fuel : Nat} {a : Layout} {v : Value} {name : TypeName}

/-- Writes a value on a writer that is asked before a record is opened. -/
def encodeCounting (p : Program) (fuel : Nat) (v : Value) : Encoder :=
  Script.runCounting (p.script fuel v)

/-- Reads a record from a reader that is asked before it is opened. -/
def decodeRecordCounting (p : Program) : (fuel : Nat) → TypeName → Decoder Value
  | 0, _ => throw (.depthExceeded maxDepth)
  | fuel + 1, name => do
    Reader.enter
    let v ← p.decodeBody (p.decodeRecordCounting fuel) name
    Reader.ascend
    return v

/-- Reads a value from a reader that is asked before a record is opened. -/
def decodeCounting (p : Program) (fuel : Nat) : Decoder Value :=
  p.decodeLayout (p.decodeRecordCounting fuel) p.root

/-! ### Writing -/

/-- Counting goes through all ways of putting a script together; where there is no room, the writer
refuses a record itself. -/
theorem counts_congruence : Script.Congruence Script.Counts where
  nil := Script.Counts.nil
  single hstep := Script.Counts.single hstep.1
  append h h' := h.append h'
  nested h := h.nested
  deep _ := Script.counts_zero _

theorem counts_script (hfuel : room ≤ fuel) :
    Script.Counts room (p.script fuel v) (p.script room v) :=
  counts_congruence.script p hfuel v

/-- **Counting while writing.** A value is written on a writer that is asked before each record just
as it is written with the room that the writer has at the beginning. -/
theorem encodeCounting_eq {w : Writer} (hw : w.depth ≤ maxDepth) (hfuel : maxDepth ≤ fuel) :
    p.encodeCounting fuel v w = p.encode v w :=
  (counts_script ((Nat.sub_le _ _).trans hfuel) w (by omega)).1

/-- A value that has been written leaves no record open. -/
theorem depth_of_encode {w w' : Writer} (hw : w.depth ≤ maxDepth) (h : p.encode v w = .ok () w') :
    w'.depth = w.depth :=
  (counts_script (Nat.le_refl _) w (by omega)).2 w' h

/-! ### Reading -/

section Reading

open Decoder

variable {call call' : TypeName → Decoder Value} {format : WireFormat}

/-- **A value is read alike, if the records in it are.** -/
theorem counts_decodeLayout_of (h : ∀ name, (call name).Counts format room (call' name)) :
    (p.decodeLayout call a).Counts format room (p.decodeLayout call' a) := by
  -- By induction on the layout: only records look at the depth.
  induction a with
  | primitive q => exact Counts.of_yields Primitive.local_decode
  | text => exact Counts.of_yields local_decodeText
  | nullable inner ih =>
    rw [decodeLayout, decodeLayout]
    cases p.packed? inner with
    | some wrapped => exact Counts.of_yields (local_decodePacked wrapped)
    | none =>
      refine (Counts.of_yields yields_readByte).bind fun byte => ?_
      split
      · exact Counts.pure _
      · split
        · exact ih
        · exact Counts.throw _
  | list member ih =>
    rw [decodeLayout_list, decodeLayout_list]
    refine (Counts.of_yields yields_readLength).bind fun n r hr hroom => ?_
    rw [decodeCounted_apply, decodeCounted_apply]
    split
    · exact ((ih.repeatInto n []).bind fun vs => Counts.pure (Value.list vs)) r hr hroom
    · exact Counts.throw _ r hr hroom
  | record name fields => exact h name
  | reference name => exact h name
  | subtypes group members ih =>
    rw [decodeLayout, decodeLayout]
    refine (Counts.of_yields local_readTag).bind fun tag => ?_
    -- Both decoders take the tag for that of the same member.
    have hmember : Option.Rel (fun d d' : Decoder Value => d.Counts format room d')
        (p.decodeMember? call members tag) (p.decodeMember? call' members tag) :=
      optionRel_decodeMember? (List.forall₂_same.2 fun m hm => ⟨rfl, ih m hm⟩) tag
    generalize p.decodeMember? call members tag = d at hmember ⊢
    generalize p.decodeMember? call' members tag = d' at hmember ⊢
    cases hmember with
    | some hmember => exact hmember
    | none => exact Counts.throw _

theorem counts_decodeFields {fields : List (Field Layout)}
    (h : ∀ name, (call name).Counts format room (call' name)) (done : FieldMap Value) :
    (p.decodeFields call fields done).Counts format room (p.decodeFields call' fields done) := by
  induction fields generalizing done with
  | nil => exact Counts.pure done
  | cons f fields ih => exact (counts_decodeLayout_of h).bind fun v => ih _

/-- **A record is read alike**, by induction on the fuel, of which there is as much as room. -/
theorem counts_decodeRecord (hfuel : room ≤ fuel) (name : TypeName) :
    (p.decodeRecordCounting fuel name).Counts format room (p.decodeRecord room name) := by
  -- Fuel beyond the room is never used.
  induction fuel generalizing room name with
  | zero =>
    obtain rfl := Nat.le_zero.1 hfuel
    exact Counts.throw _
  | succ fuel ih =>
    cases room with
    | zero => exact counts_zero _
    | succ room =>
      have hbody : (p.decodeBody (p.decodeRecordCounting fuel) name).Counts format room
          (p.decodeBody (p.decodeRecord room) name) :=
        (counts_decodeFields (ih (Nat.le_of_succ_le_succ hfuel)) []).bind fun _ => Counts.pure _
      exact hbody.nested

theorem counts_decode (hfuel : room ≤ fuel) :
    (p.decodeCounting fuel).Counts format room
      (p.decodeLayout (p.decodeRecord room) p.root) :=
  counts_decodeLayout_of (counts_decodeRecord hfuel)

end Reading

/-- **Counting while reading.** A value is read from a reader that is asked before each record just
as it is read with the room that the reader has at the beginning. -/
theorem decodeCounting_eq {r : Reader} (hr : r.depth ≤ maxDepth) (hfuel : maxDepth ≤ fuel) :
    p.decodeCounting fuel r = p.decode r :=
  (counts_decode ((Nat.sub_le _ _).trans hfuel) r rfl (by omega)).1

/-- A value that has been read leaves no record open. -/
theorem depth_of_decode {r r' : Reader} (hr : r.depth ≤ maxDepth) (h : p.decode r = .ok v r') :
    r'.depth = r.depth :=
  ((counts_decode (Nat.le_refl _) r rfl (by omega)).2 v r' h).2

end Program

end SchemaWire

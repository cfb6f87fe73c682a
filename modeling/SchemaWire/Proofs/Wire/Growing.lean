import SchemaWire.Proofs.Wire.Framing
/-!
# Writing into a buffer that grows

Whoever does not know how large an encoding will be tries: a buffer that is too small is grown to
twice its size, with what has been written into it, and the encoding begins again at its beginning
(`GrowsTo`). Nothing about a buffer bounds the number of tries; it is the script that does.

A step fails either for want of room or for a reason of its own, which is the same on every writer
(`Step.fault?`). So what comes of a script where there is room does not depend on the writer either
(`Script.outcome`): it is the error of the first step with such a reason, and if there is none, the
bytes. A writer with less room may stop earlier, and then it says so; it comes to nothing else
(`Script.fault?_or_overflow_of_run_eq_error`). What the tries come to is therefore the outcome of
the script (`Script.growsTo_outcome`), as long as no step takes it on itself to report an overflow
(`Script.NeverOverflows`).
-/

namespace SchemaWire

/-- Whether an error says that a buffer is too small. -/
def EncodeError.isOverflow : EncodeError → Bool
  | .bufferOverflow _ _ _ => true
  | _ => false

/-- **A write that is tried on larger and larger buffers**, as long as it overflows them, and what
it comes to. The next buffer holds what has been written into the one before, and zeros. -/
inductive GrowsTo (write : Array UInt8 → Except EncodeError Nat × Array UInt8) :
    Array UInt8 → Except EncodeError (Array UInt8) → Prop
  | fits {buffer buffer' : Array UInt8} {size : Nat} (h : write buffer = (.ok size, buffer')) :
      GrowsTo write buffer (.ok (buffer'.extract 0 size))
  | refused {buffer buffer' : Array UInt8} {e : EncodeError}
      (h : write buffer = (.error e, buffer')) (he : e.isOverflow = false) :
      GrowsTo write buffer (.error e)
  | again {buffer buffer' : Array UInt8} {e : EncodeError}
      {result : Except EncodeError (Array UInt8)} (h : write buffer = (.error e, buffer'))
      (he : e.isOverflow = true)
      (hgrown : GrowsTo write (buffer' ++ Array.replicate buffer'.size 0) result) :
      GrowsTo write buffer result

/-- The tries come to one result at most. -/
theorem GrowsTo.unique {write : Array UInt8 → Except EncodeError Nat × Array UInt8}
    {buffer : Array UInt8} {result result' : Except EncodeError (Array UInt8)}
    (h : GrowsTo write buffer result) (h' : GrowsTo write buffer result') : result = result' := by
  -- By induction on the first run: the same write gives the same answer, so the second one takes
  -- the same turn.
  induction h with
  | fits hwrite =>
    cases h' with
    | fits hwrite' =>
      cases hwrite.symm.trans hwrite'
      rfl
    | refused hwrite' | again hwrite' => cases hwrite.symm.trans hwrite'
  | refused hwrite he =>
    cases h' with
    | fits hwrite' => cases hwrite.symm.trans hwrite'
    | refused hwrite' =>
      cases hwrite.symm.trans hwrite'
      rfl
    | again hwrite' he' =>
      cases hwrite.symm.trans hwrite'
      cases he.symm.trans he'
  | again hwrite he _ ih =>
    cases h' with
    | fits hwrite' => cases hwrite.symm.trans hwrite'
    | refused hwrite' he' =>
      cases hwrite.symm.trans hwrite'
      cases he.symm.trans he'
    | again hwrite' _ hgrown' =>
      cases hwrite.symm.trans hwrite'
      exact ih hgrown'

/-! ### Faults -/

/-- The error with which a step fails on every writer, whatever room there is. -/
def Step.fault? : Step → Option EncodeError
  | .length n => if n < 2 ^ 32 then none else some (.lengthOverflow n)
  | .fail e => some e
  | .raw _ | .varint _ | .fixed _ _ | .enter | .leave => none

theorem Step.valid_iff_fault? {step : Step} : step.Valid ↔ step.fault? = none := by
  cases step with
  | length n => simp [Valid, fault?]
  | fail e => exact iff_of_false id (Option.some_ne_none e)
  | raw _ | varint _ | fixed _ _ | enter | leave => exact ⟨fun _ => rfl, fun _ => trivial⟩

/-- A step that fails has a fault, or else it lacks room. -/
theorem Writer.fault?_or_overflow_of_perform_eq_error {step : Step} {w w' : Writer}
    {e : EncodeError} (h : perform step w = .error e w') :
    step.fault? = some e ∨
      e.isOverflow = true ∧ w.remaining < (step.bytes w.format).length := by
  -- A step that pushes bytes can only lack room; the faults are those of values that have no
  -- spelling.
  have hpush {bs : List UInt8} (h : push bs w = .error e w') :
      e.isOverflow = true ∧ w.remaining < bs.length := by
    obtain ⟨-, rfl, hroom⟩ := push_eq_error h
    exact ⟨rfl, hroom⟩
  cases step with
  | raw bs => exact .inr (hpush h)
  | varint u => exact .inr (hpush h)
  | fixed width n => exact .inr (hpush h)
  | length n =>
    simp only [perform] at h
    split at h
    · exact .inr (hpush h)
    · next hn =>
      cases h
      exact .inl (if_neg hn)
  | enter | leave => cases h
  | fail e' =>
    cases h
    exact .inl rfl

namespace Script

variable {format : WireFormat} {script more : Script} {step : Step} {e : EncodeError}
  {buffer : Array UInt8}

/-- The first fault of a script. -/
def fault? (script : Script) : Option EncodeError := script.findSome? Step.fault?

/-- **What comes of a script** on a writer that has room for it. -/
def outcome (format : WireFormat) (script : Script) : Except EncodeError (Array UInt8) :=
  match script.fault? with
  | some e => .error e
  | none => .ok (script.bytes format).toArray

/-- No step reports an overflow of its own accord. -/
def NeverOverflows (script : Script) : Prop :=
  ∀ step ∈ script, ∀ e, step.fault? = some e → e.isOverflow = false

theorem valid_iff_fault? : script.Valid ↔ script.fault? = none := by
  rw [fault?, List.findSome?_eq_none_iff]
  exact forall₂_congr fun _ _ => Step.valid_iff_fault?

/-- **A run that fails** comes upon the first fault, or else it lacks room before that. -/
theorem fault?_or_overflow_of_run_eq_error {w w' : Writer} (h : run script w = .error e w') :
    script.fault? = some e ∨
      e.isOverflow = true ∧ w.remaining < (script.bytes w.format).length := by
  -- By induction on the steps: the first that fails is at fault or lacks room.
  induction script generalizing w with
  | nil => cases h
  | cons step script ih =>
    rw [run] at h
    rw [fault?, List.findSome?_cons, bytes_cons, List.length_append]
    split at h
    · next w₁ hstep =>
      -- The step has no fault, and what it has written is no longer there for the rest.
      have hvalid := (Writer.exists_perform_eq_ok_iff.1 ⟨w₁, hstep⟩).1
      rw [Step.valid_iff_fault?.1 hvalid]
      refine (ih h).imp_right (And.imp_right fun hroom => ?_)
      obtain ⟨hbuffer, hoffset, hformat, hwritten⟩ := Writer.perform_eq_ok hstep
      have hsize := congrArg List.length hwritten
      simp only [List.length_append, Array.length_toList] at hsize
      simp only [Writer.remaining, Writer.position, hbuffer, hoffset, hformat, hsize] at hroom ⊢
      omega
    · next e₁ w₁ hstep =>
      cases h
      obtain hfault | ⟨he, hroom⟩ := Writer.fault?_or_overflow_of_perform_eq_error hstep
      · rw [hfault]
        exact .inl rfl
      · exact .inr ⟨he, by omega⟩

/-! ### Buffers -/

/-- What there is to a write that fails. -/
theorem fault?_or_overflow_of_writeInto {buffer' : Array UInt8}
    (h : script.writeInto buffer 0 format = (.error e, buffer')) :
    script.fault? = some e ∨ e.isOverflow = true ∧ buffer.size < (script.bytes format).length := by
  rw [writeInto, Writer.start, dif_pos (Nat.zero_le _)] at h
  simp only at h
  split at h
  · cases h
  · next hrun =>
    cases h
    exact fault?_or_overflow_of_run_eq_error hrun

/-- What there is to a write that succeeds. -/
theorem outcome_of_writeInto {buffer' : Array UInt8} {size : Nat}
    (h : script.writeInto buffer 0 format = (.ok size, buffer')) :
    size ≤ buffer'.size ∧ script.outcome format = .ok (buffer'.extract 0 size) := by
  obtain ⟨hvalid, hsize, hroom, hbuffer'⟩ := writeInto_eq_ok_iff.1 h
  rw [Nat.zero_add] at hsize
  constructor
  · have hkept := (script.writeInto_keeps buffer 0 format).1
    rw [h] at hkept
    exact hkept ▸ hroom
  · -- The bytes in the buffer are those of the script, so cutting them out gives the output.
    rw [outcome, valid_iff_fault?.1 hvalid]
    refine congrArg Except.ok (Array.toList_inj.1 ?_)
    rw [Array.toList_extract, List.extract_eq_take_drop, hbuffer', hsize]
    simp

/-- **A buffer with enough room** settles what comes of a script. -/
theorem writeInto_of_room (hroom : (script.bytes format).length ≤ buffer.size) :
    (∀ e, script.outcome format = .error e → (script.writeInto buffer 0 format).1 = .error e) ∧
    ∀ bytes, script.outcome format = .ok bytes →
      (script.writeInto buffer 0 format).1 = .ok bytes.size ∧
        (script.writeInto buffer 0 format).2.extract 0 bytes.size = bytes := by
  -- With enough room, an answer is the outcome, and an overflow is impossible.
  cases hwrite : script.writeInto buffer 0 format with
  | mk result buffer' =>
    cases result with
    | ok size =>
      obtain ⟨hsize, houtcome⟩ := outcome_of_writeInto hwrite
      rw [houtcome]
      refine ⟨nofun, fun bytes hbytes => ?_⟩
      cases hbytes
      simp only [Array.size_extract, Nat.sub_zero, Nat.min_eq_left hsize, and_self]
    | error e =>
      obtain hfault | ⟨-, hlack⟩ := fault?_or_overflow_of_writeInto hwrite
      · rw [outcome, hfault]
        exact ⟨fun _ he => by cases he; rfl, nofun⟩
      · exact absurd hroom (Nat.not_le.2 hlack)

/-! ### Growing -/

theorem outcome_ne_overflow (h : script.NeverOverflows) (he : script.outcome format = .error e) :
    e.isOverflow = false := by
  unfold outcome at he
  split at he
  · next hfault =>
    -- Among the faults that a script can have there is no overflow.
    cases he
    obtain ⟨step, hstep, hstepfault⟩ := List.exists_of_findSome?_eq_some hfault
    exact h step hstep _ hstepfault
  · cases he

/-- **Trying comes to the outcome**, from whatever buffer it starts that is not empty: an overflow
tells that the buffer is smaller than the script, and the next one is larger. -/
theorem growsTo_outcome (h : script.NeverOverflows) (hbuffer : 0 < buffer.size) :
    GrowsTo (script.writeInto · 0 format) buffer (script.outcome format) := by
  -- By induction on the bytes that are lacking, fewer at each turn since the buffer is not empty.
  induction hlack : (script.bytes format).length - buffer.size using Nat.strongRecOn
    generalizing buffer with
  | ind lack ih =>
    cases hwrite : script.writeInto buffer 0 format with
    | mk result buffer' =>
      cases result with
      | ok size =>
        rw [(outcome_of_writeInto hwrite).2]
        exact .fits hwrite
      | error e =>
        obtain hfault | ⟨he, hroom⟩ := fault?_or_overflow_of_writeInto hwrite
        · have houtcome : script.outcome format = .error e := by rw [outcome, hfault]
          rw [houtcome]
          exact .refused hwrite (outcome_ne_overflow h houtcome)
        · have hkept := (script.writeInto_keeps buffer 0 format).1
          rw [hwrite] at hkept
          simp only at hkept
          refine .again hwrite he (ih _ ?_ ?_ rfl)
          · rw [Array.size_append, Array.size_replicate, hkept]
            omega
          · rw [Array.size_append, hkept]
            omega

/-- **Trying on zeroed buffers** comes to the outcome as well. -/
theorem writeGrowing_eq_outcome (h : script.NeverOverflows) {size : Nat} (hsize : 0 < size) :
    script.writeGrowing format size = script.outcome format := by
  -- As in `growsTo_outcome`: doubling brings the buffer closer to the size of the script.
  -- A turn that overflows goes on with twice the size, and one that does not is the last.
  induction hlack : script.size format - size using Nat.strongRecOn generalizing size with
  | ind lack ih =>
    rw [writeGrowing]
    cases hwrite : script.writeInto (Array.replicate size 0) 0 format with
    | mk result buffer =>
      cases result with
      | ok position => exact (outcome_of_writeInto hwrite).2.symm
      | error e =>
        obtain hfault | ⟨he, hroom⟩ := fault?_or_overflow_of_writeInto hwrite
        · have houtcome : script.outcome format = .error e := by rw [outcome, hfault]
          rw [houtcome]
          cases e with
          | bufferOverflow _ _ _ => cases outcome_ne_overflow h houtcome
          | _ => rfl
        · rw [Array.size_replicate] at hroom
          cases e with
          | bufferOverflow offset needed remaining =>
            simp only
            rw [if_pos ⟨hsize, hroom⟩]
            have hlarger : script.size format - 2 * size < lack := by
              rw [← hlack]
              exact Nat.sub_lt_sub_left hroom (by omega)
            exact ih _ hlarger (by omega) rfl
          | _ => cases he

/-! ### Scripts that never overflow -/

theorem neverOverflows_cons : NeverOverflows (step :: script) ↔
    (∀ e, step.fault? = some e → e.isOverflow = false) ∧ NeverOverflows script :=
  List.forall_mem_cons

theorem neverOverflows_append :
    NeverOverflows (script ++ more) ↔ NeverOverflows script ∧ NeverOverflows more :=
  List.forall_mem_append

/-- A length may be too large for every writer, but that is no overflow. -/
theorem isOverflow_of_fault?_length {n : Nat} (h : (Step.length n).fault? = some e) :
    e.isOverflow = false := by
  simp only [Step.fault?] at h
  split at h
  · cases h
  · cases h
    rfl

/-- A valid script has no faults at all. -/
theorem Valid.neverOverflows (h : script.Valid) : NeverOverflows script := by
  intro step hstep e he
  rw [Step.valid_iff_fault?.1 (h step hstep)] at he
  cases he

theorem neverOverflows_fail (he : e.isOverflow = false) : NeverOverflows [.fail e] := by
  intro step hstep e' he'
  cases List.mem_singleton.1 hstep
  cases he'
  exact he

end Script

end SchemaWire

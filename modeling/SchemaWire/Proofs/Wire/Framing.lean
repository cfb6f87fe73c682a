import SchemaWire.Proofs.Wire.Script
/-!
# Writing where there may be no room

A writer only ever moves on (`Writer.Onward`): it stays in the part of the buffer that it was lent
and keeps what has been written. So whatever a script does and however it ends, the buffer keeps its
size and everything before the offset (`Script.writeInto_keeps`).

A valid script can fail for want of room only, and its bytes do not depend on where they go. What
becomes of it is then a matter of the offset and the sizes alone (`Frames`, `Script.frames`): its
bytes are written if they have room; if they do not, the piece that has none is reported, which lies
behind the offset and inside the buffer; and nothing at all is done past the end of the buffer.
-/

namespace SchemaWire

namespace Writer

/-- **A writer has moved on** in the buffer that it was lent, and what had been written still
stands. -/
structure Onward (w w' : Writer) : Prop where
  buffer : w'.buffer = w.buffer
  offset : w'.offset = w.offset
  written : w.written.toList <+: w'.written.toList

variable {w w' w'' : Writer} {step : Step} {e : EncodeError}

theorem Onward.refl (w : Writer) : w.Onward w := ⟨rfl, rfl, List.prefix_rfl⟩

theorem Onward.trans (h : w.Onward w') (h' : w'.Onward w'') : w.Onward w'' :=
  ⟨h'.buffer.trans h.buffer, h'.offset.trans h.offset, h.written.trans h'.written⟩

theorem Onward.position_le (h : w.Onward w') : w.position ≤ w'.position := by
  have hlength := h.written.length_le
  simp only [Array.length_toList] at hlength
  rw [position, position, h.offset]
  exact Nat.add_le_add_left hlength _

theorem onward_of_perform_eq_ok (h : perform step w = .ok () w') : w.Onward w' := by
  obtain ⟨hbuffer, hoffset, -, hwritten⟩ := perform_eq_ok h
  exact ⟨hbuffer, hoffset, hwritten ▸ List.prefix_append _ _⟩

/-- A valid step that fails lacks the room for its bytes. -/
theorem overflow_of_perform_eq_error (hstep : step.Valid) (h : perform step w = .error e w') :
    ∃ needed, e = .bufferOverflow w.position needed w.remaining ∧ w.remaining < needed := by
  -- Every step that writes asks for its room first and reports what it lacks.
  cases step with
  | raw bs => exact ⟨_, (push_eq_error h).2⟩
  | varint u => exact ⟨_, (push_eq_error h).2⟩
  | fixed width n => exact ⟨_, (push_eq_error h).2⟩
  | length n =>
    have hn : n < UInt32.size := hstep
    simp only [perform, hn, if_true] at h
    exact ⟨_, (push_eq_error h).2⟩
  | enter | leave => cases h
  | fail _ => exact hstep.elim

/-! ### The buffer around what has been written -/

theorem position_add_remaining (w : Writer) : w.position + w.remaining = w.buffer.size :=
  Nat.add_sub_of_le w.fits

theorem size_contents (w : Writer) : w.contents.size = w.buffer.size := by
  have hfits := w.fits
  simp only [contents, position, Array.size_append, Array.size_extract]
  omega

/-- Everything before the offset is as it was lent. -/
theorem take_contents (w : Writer) :
    w.contents.toList.take w.offset = w.buffer.toList.take w.offset := by
  have hoffset : (w.buffer.toList.take w.offset).length = w.offset := by
    have := w.fits
    exact List.length_take_of_le (by rw [Array.length_toList]; omega)
  simp only [contents, Array.toList_append, Array.toList_extract, List.extract_eq_take_drop,
    Nat.sub_zero, List.drop_zero, List.append_assoc]
  exact List.take_left' hoffset

end Writer

namespace Script

variable {script : Script} {format : WireFormat} {w w' : Writer} {e : EncodeError}
  {buffer : Array UInt8} {offset : Nat}

theorem onward_of_run_eq_ok (h : run script w = .ok () w') : w.Onward w' := by
  obtain ⟨hbuffer, hoffset, hwritten⟩ := written_of_run_eq_ok h
  exact ⟨hbuffer, hoffset, hwritten ▸ List.prefix_append _ _⟩

/-- A run that fails has moved on to the step that fails. -/
theorem onward_of_run_eq_error (h : run script w = .error e w') : w.Onward w' := by
  -- By induction on the steps; the one that fails leaves the cursor where it is.
  induction script generalizing w with
  | nil => cases h
  | cons step script ih =>
    rw [run] at h
    split at h
    · next w₁ hstep => exact (Writer.onward_of_perform_eq_ok hstep).trans (ih h)
    · next e₁ w₁ hstep =>
      cases h
      obtain rfl := Writer.perform_eq_error hstep
      exact Writer.Onward.refl _

/-- **A valid script fails for want of room only**, at the step whose bytes have none. -/
theorem overflow_of_run_eq_error (hvalid : script.Valid) (h : run script w = .error e w') :
    ∃ needed, e = .bufferOverflow w'.position needed w'.remaining ∧ w'.remaining < needed := by
  induction script generalizing w with
  | nil => cases h
  | cons step script ih =>
    rw [valid_cons] at hvalid
    rw [run] at h
    split at h
    · next w₁ hstep => exact ih hvalid.2 h
    -- A step that fails reports where the cursor is.
    · next e₁ w₁ hstep =>
      cases h
      have hoverflow := Writer.overflow_of_perform_eq_error hvalid.1 hstep
      obtain rfl := Writer.perform_eq_error hstep
      exact hoverflow

/-! ### Writing into a buffer -/

/-- Past the end of a buffer nothing is done. -/
theorem writeInto_of_lt (h : buffer.size < offset) :
    script.writeInto buffer offset format =
      (.error (.offsetOutOfBounds offset buffer.size), buffer) := by
  rw [writeInto, Writer.start, dif_neg (Nat.not_le.2 h)]

/-- **However writing ends**, the buffer keeps its size and everything before the offset. -/
theorem writeInto_keeps (script : Script) (buffer : Array UInt8) (offset : Nat)
    (format : WireFormat) :
    (script.writeInto buffer offset format).2.size = buffer.size ∧
      (script.writeInto buffer offset format).2.toList.take offset =
        buffer.toList.take offset := by
  -- In both outcomes the cursor has moved on, and what is before the offset is not touched by that.
  have hmoved {w w' : Writer} (hbuffer : w.buffer = buffer) (hoffset : w.offset = offset)
      (h : w.Onward w') : w'.contents.size = buffer.size ∧
        w'.contents.toList.take offset = buffer.toList.take offset := by
    rw [Writer.size_contents, h.buffer, hbuffer, ← hoffset, ← h.offset, Writer.take_contents,
      h.buffer, hbuffer]
    exact ⟨rfl, rfl⟩
  by_cases hstart : offset ≤ buffer.size
  · rw [writeInto, Writer.start, dif_pos hstart]
    simp only
    split
    · next w' hrun => exact hmoved rfl rfl (onward_of_run_eq_ok hrun)
    · next e w' hrun => exact hmoved rfl rfl (onward_of_run_eq_error hrun)
  · rw [writeInto_of_lt (Nat.not_le.1 hstart)]
    exact ⟨rfl, rfl⟩

/-- A valid script whose bytes have no room overflows the buffer behind the offset. -/
theorem exists_writeInto_eq_overflow (hvalid : script.Valid) (hoffset : offset ≤ buffer.size)
    (hroom : buffer.size < offset + (script.bytes format).length) :
    ∃ position needed remaining buffer',
      script.writeInto buffer offset format =
        (.error (.bufferOverflow position needed remaining), buffer') ∧
      offset ≤ position ∧ position + remaining = buffer.size ∧ remaining < needed := by
  obtain ⟨w, hw⟩ : ∃ w : Writer, w = ⟨buffer, offset, #[], format, 0, hoffset⟩ := ⟨_, rfl⟩
  have hposition : w.position = offset := by simp [Writer.position, hw]
  rw [writeInto, Writer.start, dif_pos hoffset, ← hw]
  cases hrun : run script w with
  | ok _ w' =>
    -- All bytes have been written, so they had room.
    obtain ⟨-, hfits⟩ := run_eq_ok_iff.1 ⟨w', hrun⟩
    simp only [hw, Writer.position] at hfits
    exact absurd hfits (Nat.not_le.2 hroom)
  | error e w' =>
    obtain ⟨needed, rfl, hneeded⟩ := overflow_of_run_eq_error hvalid hrun
    have honward := onward_of_run_eq_error hrun
    have hbuffer : w'.buffer = buffer := by rw [honward.buffer, hw]
    simp only [hrun]
    refine ⟨_, _, _, _, rfl, hposition ▸ honward.position_le, ?_, hneeded⟩
    rw [Writer.position_add_remaining, hbuffer]

end Script

/-- **Writing is a matter of room**: `write`, which takes a buffer and an offset, writes `bytes`
where they have room, and otherwise says where the room ended. -/
structure Frames (write : Array UInt8 → Nat → Except EncodeError Nat × Array UInt8)
    (bytes : List UInt8) : Prop where
  /-- The bytes are put at the offset, and all others stay as they are. -/
  fits : ∀ (buffer : Array UInt8) (offset : Nat), offset + bytes.length ≤ buffer.size →
    ∃ buffer', write buffer offset = (.ok (offset + bytes.length), buffer') ∧
      buffer'.toList = buffer.toList.take offset ++ bytes ++
        buffer.toList.drop (offset + bytes.length)
  /-- A piece is reported that lies behind the offset and needs more than is left there. -/
  overflows : ∀ (buffer : Array UInt8) (offset : Nat), offset ≤ buffer.size →
    buffer.size < offset + bytes.length →
      ∃ position needed remaining buffer',
        write buffer offset = (.error (.bufferOverflow position needed remaining), buffer') ∧
        offset ≤ position ∧ position + remaining = buffer.size ∧ remaining < needed
  outside : ∀ (buffer : Array UInt8) (offset : Nat), buffer.size < offset →
    write buffer offset = (.error (.offsetOutOfBounds offset buffer.size), buffer)

/-- There are no other bytes that are ever written. -/
theorem Frames.bytes_eq {write : Array UInt8 → Nat → Except EncodeError Nat × Array UInt8}
    {bytes : List UInt8} (h : Frames write bytes) {buffer buffer' : Array UInt8} {offset e : Nat}
    (hwrite : write buffer offset = (.ok e, buffer')) :
    e = offset + bytes.length ∧ bytes = (buffer'.toList.drop offset).take bytes.length := by
  -- The three cases of a write: outside the buffer, without room, and with room.
  by_cases hoffset : offset ≤ buffer.size
  · by_cases hroom : offset + bytes.length ≤ buffer.size
    · obtain ⟨buffer₁, hfits, hbuffer₁⟩ := h.fits buffer offset hroom
      cases hwrite.symm.trans hfits
      have hbefore : (buffer.toList.take offset).length = offset :=
        List.length_take_of_le (by rwa [Array.length_toList])
      rw [hbuffer₁, List.append_assoc, List.drop_left' hbefore, List.take_left]
      exact ⟨rfl, rfl⟩
    · obtain ⟨_, _, _, _, hoverflow, -⟩ := h.overflows buffer offset hoffset (Nat.not_le.1 hroom)
      cases hwrite.symm.trans hoverflow
  · cases hwrite.symm.trans (h.outside buffer offset (Nat.not_le.1 hoffset))

/-- **A valid script is a matter of room.** -/
theorem Script.frames {script : Script} (hvalid : script.Valid) (format : WireFormat) :
    Frames (script.writeInto · · format) (script.bytes format) where
  fits buffer offset hroom := by
    obtain ⟨buffer', hwrite⟩ := exists_writeInto_eq_ok hvalid hroom
    exact ⟨buffer', hwrite, (writeInto_eq_ok_iff.1 hwrite).2.2.2⟩
  overflows _ _ hoffset hroom := exists_writeInto_eq_overflow hvalid hoffset hroom
  outside _ _ hoffset := writeInto_of_lt hoffset

end SchemaWire

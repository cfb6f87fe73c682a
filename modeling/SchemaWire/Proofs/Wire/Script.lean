import Mathlib.Algebra.Ring.Nat
import SchemaWire.Serializer
/-!
# What a script writes

A script says everything about an encoding but where it goes. `Script.Valid` says that no step of it
can fail for want of anything but room, and `Script.bytes` is what it writes.

* `Script.run_eq_ok_iff` — a writer performs a script exactly when the script is valid and its bytes
  have room; afterwards they stand behind what was written before.
* `Script.writeInto_eq_ok_iff` — the same for a buffer: the encoding starts at the offset, ends
  where its bytes end, and leaves every other byte of the buffer alone.
-/

namespace SchemaWire

/-- A step that every writer with enough room performs. -/
def Step.Valid : Step → Prop
  | .length n => n < 2 ^ 32
  | .fail _ => False
  | .raw _ | .varint _ | .fixed _ _ | .enter | .leave => True

namespace Script

/-- No step fails but for want of room. -/
def Valid (script : Script) : Prop := ∀ step ∈ script, step.Valid

/-- What a script writes under a format. -/
def bytes (format : WireFormat) (script : Script) : List UInt8 := script.flatMap (·.bytes format)

variable {format : WireFormat} {step : Step} {script more : Script}

@[simp] theorem valid_nil : Valid [] := by simp [Valid]

@[simp] theorem valid_cons : Valid (step :: script) ↔ step.Valid ∧ Valid script := by
  simp [Valid]

@[simp] theorem valid_append : Valid (script ++ more) ↔ Valid script ∧ Valid more := by
  simp [Valid, or_imp, forall_and]

theorem valid_flatMap {α : Type} {xs : List α} {f : α → Script} :
    Valid (xs.flatMap f) ↔ ∀ x ∈ xs, Valid (f x) := by
  simp only [Valid, List.mem_flatMap]
  exact ⟨fun h x hx step hs => h step ⟨x, hx, hs⟩, fun h step ⟨x, hx, hs⟩ => h x hx step hs⟩

/-- A failing step is not valid, so a valid script is none that only fails. -/
@[simp] theorem not_valid_fail {e : EncodeError} : ¬ Valid [.fail e] := by
  simp [Step.Valid]

@[simp] theorem bytes_nil : bytes format [] = [] := rfl

@[simp] theorem bytes_cons :
    bytes format (step :: script) = step.bytes format ++ bytes format script := rfl

@[simp] theorem bytes_append :
    bytes format (script ++ more) = bytes format script ++ bytes format more := by
  simp [bytes]

theorem bytes_flatMap {α : Type} {xs : List α} {f : α → Script} :
    bytes format (xs.flatMap f) = xs.flatMap fun x => bytes format (f x) := by
  simp [bytes, List.flatMap_assoc]

end Script

/-! ### Running a script -/

namespace Writer

/-- One step is performed exactly when it is valid and its bytes have room. -/
theorem exists_perform_eq_ok_iff {step : Step} {w : Writer} :
    (∃ w', perform step w = .ok () w') ↔
      step.Valid ∧ w.position + (step.bytes w.format).length ≤ w.buffer.size := by
  have hpush (bs : List UInt8) :
      (∃ w', push bs w = .ok () w') ↔ w.position + bs.length ≤ w.buffer.size := by
    unfold push
    split
    · next h => exact ⟨fun _ => h, fun _ => ⟨_, rfl⟩⟩
    · next h =>
      refine ⟨?_, fun h' => absurd h' h⟩
      rintro ⟨w', hw⟩
      cases hw
  -- Moving in and out of records writes nothing, so for that there is always room.
  have hfits : w.position ≤ w.buffer.size := w.fits
  cases step with
  | raw bs => simpa [perform, Step.Valid, Step.bytes] using hpush bs
  | varint u => simpa [perform, Step.Valid, Step.bytes] using hpush (Varint.encode u)
  | fixed width n =>
    simpa [perform, Step.Valid, Step.bytes] using hpush (w.format.byteOrder.bytes width n)
  | length n =>
    simp only [perform, Step.Valid]
    split
    · next hn => exact (hpush _).trans (and_iff_right hn).symm
    · next hn =>
      refine ⟨?_, fun h => absurd h.1 hn⟩
      rintro ⟨w', hw⟩
      cases hw
  | enter => exact ⟨fun _ => ⟨trivial, hfits⟩, fun _ => ⟨_, rfl⟩⟩
  | leave => exact ⟨fun _ => ⟨trivial, hfits⟩, fun _ => ⟨_, rfl⟩⟩
  | fail e => simp [perform, Step.Valid]

end Writer

namespace Script

variable {format : WireFormat} {script : Script}

/-- What a writer holds after a script. -/
theorem written_of_run_eq_ok {w w' : Writer} (h : run script w = .ok () w') :
    w'.buffer = w.buffer ∧ w'.offset = w.offset ∧
      w'.written.toList = w.written.toList ++ script.bytes w.format := by
  -- By induction on the steps: each adds its bytes behind those written before.
  induction script generalizing w with
  | nil =>
    cases h
    simp
  | cons step script ih =>
    rw [run] at h
    split at h
    · next w₁ hstep =>
      obtain ⟨hbuffer, hoffset, hformat, hwritten⟩ := Writer.perform_eq_ok hstep
      obtain ⟨hbuffer', hoffset', hwritten'⟩ := ih h
      refine ⟨hbuffer'.trans hbuffer, hoffset'.trans hoffset, ?_⟩
      rw [hwritten', hwritten, hformat, bytes_cons, List.append_assoc]
    · cases h

/-- **Running a script.** A writer performs a script exactly when no step of it fails by itself and
all of its bytes have room. -/
theorem run_eq_ok_iff {w : Writer} :
    (∃ w', run script w = .ok () w') ↔
      script.Valid ∧ w.position + (script.bytes w.format).length ≤ w.buffer.size := by
  induction script generalizing w with
  | nil => exact ⟨fun _ => ⟨valid_nil, w.fits⟩, fun _ => ⟨w, rfl⟩⟩
  | cons step script ih =>
    rw [valid_cons, bytes_cons, List.length_append, run]
    cases hstep : Writer.perform step w with
    | ok _ w₁ =>
      obtain ⟨hbuffer, hoffset, hformat, hwritten⟩ := Writer.perform_eq_ok hstep
      have hvalid := Writer.exists_perform_eq_ok_iff.1 ⟨w₁, hstep⟩
      have hposition : w₁.position = w.position + (step.bytes w.format).length := by
        have := congrArg List.length hwritten
        simp only [List.length_append, Array.length_toList] at this
        simp only [Writer.position, hoffset]
        omega
      rw [ih, hposition, hformat, hbuffer, Nat.add_assoc]
      simp [hvalid.1]
    -- A first step that fails is invalid itself or lacks room, and then so does the script.
    | error e w₁ =>
      constructor
      · rintro ⟨w', hw⟩
        cases hw
      · rintro ⟨⟨hvalid, -⟩, hroom⟩
        have hstep' : w.position + (step.bytes w.format).length ≤ w.buffer.size := by omega
        obtain ⟨w', hw⟩ := Writer.exists_perform_eq_ok_iff.2 ⟨hvalid, hstep'⟩
        rw [hstep] at hw
        cases hw

/-! ### Writing into a buffer -/

/-- The buffer of a writer that has performed a script from its start. -/
theorem contents_of_run_eq_ok {w w' : Writer} (hstart : w.written = #[])
    (h : run script w = .ok () w') :
    w'.position = w.offset + (script.bytes w.format).length ∧
      w'.contents.toList = w.buffer.toList.take w.offset ++ script.bytes w.format ++
        w.buffer.toList.drop w'.position := by
  -- Only the bytes of the script have been written; the buffer around them is the lent one.
  obtain ⟨hbuffer, hoffset, hwritten⟩ := written_of_run_eq_ok h
  rw [hstart, List.nil_append] at hwritten
  have hposition : w'.position = w.offset + (script.bytes w.format).length := by
    rw [Writer.position, hoffset, ← hwritten, Array.length_toList]
  refine ⟨hposition, ?_⟩
  have hdrop : (w.buffer.toList.drop w'.position).take (w.buffer.size - w'.position) =
      w.buffer.toList.drop w'.position := by
    apply List.take_of_length_le
    simp
  simp [Writer.contents, hbuffer, hoffset, hwritten, hdrop]

/-- **Writing into a buffer.** An encoding succeeds exactly when its script is valid and its bytes
have room behind the offset; it ends where they end, and the other bytes stay as they are. -/
theorem writeInto_eq_ok_iff {buffer buffer' : Array UInt8} {offset e : Nat} :
    script.writeInto buffer offset format = (.ok e, buffer') ↔
      script.Valid ∧ e = offset + (script.bytes format).length ∧ e ≤ buffer.size ∧
        buffer'.toList =
          buffer.toList.take offset ++ script.bytes format ++ buffer.toList.drop e := by
  -- A writer that starts inside the buffer is the one of `run_eq_ok_iff`; past its end none starts.
  by_cases hoffset : offset ≤ buffer.size
  · obtain ⟨w, hw⟩ : ∃ w : Writer, w = ⟨buffer, offset, #[], format, 0, hoffset⟩ := ⟨_, rfl⟩
    have hrunnable : (∃ w', run script w = .ok () w') ↔
        script.Valid ∧ offset + (script.bytes format).length ≤ buffer.size := by
      rw [run_eq_ok_iff, hw]
      simp [Writer.position]
    rw [writeInto, Writer.start, dif_pos hoffset, ← hw]
    -- What the run comes to is decided by validity and room.
    cases hrun : run script w with
    | ok _ w' =>
      obtain ⟨hend, hcontents⟩ := contents_of_run_eq_ok (by rw [hw]) hrun
      obtain ⟨hvalid, hroom⟩ := hrunnable.1 ⟨w', hrun⟩
      simp only [hw] at hend hcontents
      simp only [hrun, Prod.mk.injEq, Except.ok.injEq]
      constructor
      · rintro ⟨rfl, rfl⟩
        exact ⟨hvalid, hend, hend ▸ hroom, hcontents⟩
      · rintro ⟨-, rfl, -, hbuffer'⟩
        rw [← hend] at hbuffer' ⊢
        exact ⟨rfl, Array.toList_inj.1 (hcontents.trans hbuffer'.symm)⟩
    | error err w' =>
      simp only [hrun]
      constructor
      · intro h
        cases h
      · rintro ⟨hvalid, rfl, hroom, -⟩
        obtain ⟨w'', hw''⟩ := hrunnable.2 ⟨hvalid, hroom⟩
        rw [hrun] at hw''
        cases hw''
  · rw [writeInto, Writer.start, dif_neg hoffset]
    constructor
    · intro h
      cases h
    · rintro ⟨-, rfl, hroom, -⟩
      omega

/-- A buffer that is large enough takes a valid script. -/
theorem exists_writeInto_eq_ok {buffer : Array UInt8} {offset : Nat} (h : script.Valid)
    (hroom : offset + (script.bytes format).length ≤ buffer.size) :
    ∃ buffer', script.writeInto buffer offset format =
      (.ok (offset + (script.bytes format).length), buffer') :=
  ⟨⟨buffer.toList.take offset ++ script.bytes format ++
      buffer.toList.drop (offset + (script.bytes format).length)⟩,
    writeInto_eq_ok_iff.2 ⟨h, rfl, hroom, rfl⟩⟩

end Script

end SchemaWire

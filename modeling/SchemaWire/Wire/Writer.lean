import SchemaWire.Error
import SchemaWire.Wire.Varint
import SchemaWire.Wire.FixedWidth
/-!
# Writing

A `Writer` fills part of a buffer that its owner lends it: it starts at an offset, never goes past
the end, and never grows the buffer. It is kept as the buffer as it was lent together with the
bytes written since (`Writer.written`), so that the bytes outside the written part are those of
the lent buffer by construction (`Writer.contents`).

What an encoder does to a writer is a **script**: a list of `Step`s, each of which writes one
piece or moves in or out of a record. A script is data. It does not depend on the writer, and it
says what the writer is asked for, not what the bytes are: those depend on the writer's format
(`Step.bytes`).

* A piece is written completely or not at all, and a step that fails leaves the writer as it was
  (`Writer.perform_eq_error`).
* `Script.run` performs the steps in order and stops at the first that fails; what earlier steps
  did stays done. `Script.run_append` splits a run.
* The writer counts the records that are open around the current position. Nothing closes them
  when a script stops halfway.
-/

namespace SchemaWire

/-- How deeply records may nest in one encoded value. -/
def maxDepth : Nat := 256

/-- One thing that an encoder asks of a writer. -/
inductive Step where
  | raw (bytes : List UInt8)
  | varint (u : UInt64)
  /-- A number in a fixed number of bytes, in the byte order of the writer. -/
  | fixed (width n : Nat)
  /-- The length of a text or the count of a list, in the form the writer's format gives it. -/
  | length (n : Nat)
  /-- The beginning of a record. -/
  | enter
  /-- The end of a record. -/
  | leave
  /-- The value cannot be encoded. -/
  | fail (e : EncodeError)
deriving DecidableEq, Repr

/-- The steps that encode a value, in order. -/
abbrev Script := List Step

/-- The bytes that a step writes under a format. -/
def Step.bytes (format : WireFormat) : Step → List UInt8
  | .raw bs => bs
  | .varint u => Varint.encode u
  | .fixed width n => format.byteOrder.bytes width n
  | .length n =>
    if format.varintLengths then Varint.encode (UInt64.ofNat n)
    else format.byteOrder.bytes 4 n
  | .enter | .leave | .fail _ => []

/-- A cursor that writes into a lent buffer. -/
structure Writer where
  /-- The buffer as it was lent. -/
  buffer : Array UInt8
  /-- Where writing started. -/
  offset : Nat
  /-- The bytes written since. -/
  written : Array UInt8
  format : WireFormat
  /-- The number of records open around the current position. -/
  depth : Nat
  /-- What has been written lies inside the buffer. -/
  fits : offset + written.size ≤ buffer.size

abbrev Encoder := EStateM EncodeError Writer Unit

namespace Writer

/-- A writer that starts at an offset of a buffer. -/
def start (buffer : Array UInt8) (offset : Nat) (format : WireFormat) :
    Except EncodeError Writer :=
  if h : offset ≤ buffer.size then .ok ⟨buffer, offset, #[], format, 0, h⟩
  else .error (.offsetOutOfBounds offset buffer.size)

/-- The offset just past the last byte written. -/
def position (w : Writer) : Nat := w.offset + w.written.size

/-- How many bytes can still be written. -/
def remaining (w : Writer) : Nat := w.buffer.size - w.position

/-- The buffer with what has been written in its place. -/
def contents (w : Writer) : Array UInt8 :=
  w.buffer.extract 0 w.offset ++ w.written ++ w.buffer.extract w.position w.buffer.size

/-- Writes one piece, if there is room for all of it. -/
def push (bytes : List UInt8) : Encoder := fun w =>
  if h : w.position + bytes.length ≤ w.buffer.size then
    .ok () { w with
      written := w.written ++ bytes.toArray
      fits := by
        have := h
        simp only [position] at this
        simp only [Array.size_append, List.size_toArray]
        omega }
  else .error (.bufferOverflow w.position bytes.length w.remaining) w

/-- Moves into a record. -/
def descend : Encoder := modify fun w => { w with depth := w.depth + 1 }

/-- Moves out of a record. -/
def ascend : Encoder := modify fun w => { w with depth := w.depth - 1 }

/-- Moves into a record, if records may nest that deeply. -/
def enter : Encoder := fun w =>
  if w.depth < maxDepth then descend w else .error (.depthExceeded maxDepth) w

def perform (step : Step) : Encoder := fun w =>
  match step with
  | .length n =>
    if n < UInt32.size then push ((Step.length n).bytes w.format) w
    else .error (.lengthOverflow n) w
  | .enter => descend w
  | .leave => ascend w
  | .fail e => .error e w
  | .raw bs => push bs w
  | .varint u => push (Varint.encode u) w
  | .fixed width n => push (w.format.byteOrder.bytes width n) w

end Writer

/-- Performs the steps of a script in order, up to the first that fails. -/
def Script.run : Script → Encoder
  | [], w => .ok () w
  | step :: steps, w =>
    match Writer.perform step w with
    | .ok () w => Script.run steps w
    | .error e w => .error e w

/-- The number of bytes that a script writes under a format, if all its steps succeed. -/
def Script.size (format : WireFormat) (script : Script) : Nat :=
  (script.flatMap (·.bytes format)).length

/-- Running one script after another is running both together. -/
theorem Script.run_append (s t : Script) (w : Writer) :
    Script.run (s ++ t) w =
      match Script.run s w with
      | .ok () w => Script.run t w
      | .error e w => .error e w := by
  induction s generalizing w with
  | nil => rfl
  | cons step steps ih =>
    simp only [List.cons_append, Script.run]
    cases Writer.perform step w with
    | ok _ w => exact ih w
    | error e w => rfl

namespace Writer

theorem push_eq_ok {w w' : Writer} {bs : List UInt8} (h : push bs w = .ok () w') :
    w'.buffer = w.buffer ∧ w'.offset = w.offset ∧ w'.format = w.format ∧
      w'.written.toList = w.written.toList ++ bs := by
  simp only [push] at h
  split at h
  · cases h
    simp
  · cases h

theorem push_eq_error {w w' : Writer} {bs : List UInt8} {e : EncodeError}
    (h : push bs w = .error e w') :
    w' = w ∧ e = .bufferOverflow w.position bs.length w.remaining ∧ w.remaining < bs.length := by
  simp only [push] at h
  split at h
  · cases h
  -- Too little room: the condition fails exactly if the bytes do not fit.
  · next hroom =>
    cases h
    have := w.fits
    refine ⟨rfl, rfl, ?_⟩
    simp only [remaining, position] at hroom ⊢
    omega

/-- A step changes neither the buffer that was lent nor where writing started nor the format. -/
theorem perform_eq_ok {w w' : Writer} {step : Step} (h : perform step w = .ok () w') :
    w'.buffer = w.buffer ∧ w'.offset = w.offset ∧ w'.format = w.format ∧
      w'.written.toList = w.written.toList ++ step.bytes w.format := by
  -- Entering and leaving write nothing, and a failing step does not get here.
  cases step with
  | length n =>
    simp only [perform] at h
    split at h
    · exact push_eq_ok h
    · cases h
  | enter => cases h; simp [Step.bytes]
  | leave => cases h; simp [Step.bytes]
  | fail e => cases h
  | raw bs => exact push_eq_ok h
  | varint u => exact push_eq_ok h
  | fixed width n => exact push_eq_ok h

/-- A step that fails leaves the writer as it was. -/
theorem perform_eq_error {w w' : Writer} {step : Step} {e : EncodeError}
    (h : perform step w = .error e w') : w' = w := by
  -- Only pushing and failing can go wrong, and both leave the cursor as it was.
  cases step with
  | length n =>
    simp only [perform] at h
    split at h
    · exact (push_eq_error h).1
    · cases h
      rfl
  | enter => cases h
  | leave => cases h
  | fail e => cases h; rfl
  | raw bs => exact (push_eq_error h).1
  | varint u => exact (push_eq_error h).1
  | fixed width n => exact (push_eq_error h).1

end Writer

end SchemaWire

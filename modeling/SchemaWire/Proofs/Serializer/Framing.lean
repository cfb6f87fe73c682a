import SchemaWire.Proofs.Serializer.Codec
import SchemaWire.Proofs.Wire.Framing
/-!
# Encoding where there may be no room

Whether a value can be encoded at all is one question, and whether a buffer has room for it is
another. `Serializer.encode_framed` answers the second one for all values of which the first is
answered with yes: their bytes are always the same, and what an encoding does depends on nothing but
how many they are, where they go and how large the buffer is. Of values that cannot be encoded, and
of any encoding that fails, it says what is left of the buffer.
-/

namespace SchemaWire

/-- A buffer is as large as another one, and holds the same before an offset. -/
def KeepsBefore (offset : Nat) (buffer buffer' : Array UInt8) : Prop :=
  buffer'.size = buffer.size ∧ buffer'.toList.take offset = buffer.toList.take offset

namespace Serializer

variable {s : Serializer} {version : Version} {x : Value}

/-- The bytes in front of every encoded value. -/
def header (s : Serializer) : List UInt8 :=
  if s.versionHeader then Varint.encode s.encodeVersion.toUInt64 else []

theorem valid_script_iff : (s.script x).Valid ↔ (s.scriptAt s.encodeVersion x).Valid := by
  rw [script, Script.valid_append]
  refine and_iff_right ?_
  split
  · rw [Script.valid_cons]
    exact ⟨trivial, Script.valid_nil⟩
  · exact Script.valid_nil

theorem bytes_script (format : WireFormat) :
    (s.script x).bytes format = s.header ++ (s.scriptAt s.encodeVersion x).bytes format := by
  rw [script, header, Script.bytes_append]
  congr 1
  split
  · rw [Script.bytes_cons, Script.bytes_nil, List.append_nil]
    rfl
  · rfl

theorem frames_encodeAt (h : (s.scriptAt version x).Valid) :
    Frames (s.encodeAt · · x version) ((s.scriptAt version x).bytes s.format) :=
  Script.frames h s.format

/-- **Capacity and framing.** A value that can be encoded at all is encoded as the same bytes
wherever there is room for them, and is refused for want of room everywhere else; with a header
these are the bytes behind the header. Whatever else a value may be, an encoding never changes the
size of a buffer nor anything before the offset. -/
theorem encode_framed (s : Serializer) (x : Value) :
    ((∃ buffer offset e buffer', s.encode buffer offset x = (.ok e, buffer')) →
      ∃ bytes, Frames (s.encode · · x) (s.header ++ bytes) ∧
        Frames (s.encodeAt · · x s.encodeVersion) bytes) ∧
      (∀ version, s.Accepts version x → ∃ bytes, Frames (s.encodeAt · · x version) bytes) ∧
      ∀ (buffer : Array UInt8) (offset : Nat),
        KeepsBefore offset buffer (s.encode buffer offset x).2 ∧
          ∀ version, KeepsBefore offset buffer (s.encodeAt buffer offset x version).2 := by
  refine ⟨?_, ?_, fun buffer offset => ⟨?_, fun version => ?_⟩⟩
  · rintro ⟨buffer, offset, e, buffer', hencode⟩
    -- One success shows that the script is valid, and then it writes the same bytes everywhere.
    have hvalid : (s.script x).Valid := (Script.writeInto_eq_ok_iff.1 hencode).1
    refine ⟨_, ?_, frames_encodeAt (valid_script_iff.1 hvalid)⟩
    rw [← bytes_script]
    exact Script.frames hvalid s.format
  · rintro version ⟨buffer, offset, e, buffer', hencode⟩
    exact ⟨_, frames_encodeAt (Script.writeInto_eq_ok_iff.1 hencode).1⟩
  · exact Script.writeInto_keeps _ buffer offset s.format
  · exact Script.writeInto_keeps _ buffer offset s.format

/-- A chain of one behind its version: six bytes where there is room for six, and an overflow where
there is room for four. -/
theorem encode_framed_chain :
    let s := Chain.serializer { level := .level1, versionHeader := true }
    let x := Value.record "Chain" [("flag", .wrapped (some ⟨.bool, true⟩)), ("next", .null),
      ("size", .scalar ⟨.u16, 258⟩)]
    s.Built ∧ s.encode (Array.replicate 6 7) 0 x = (.ok 6, #[1, 0, 1, 1, 1, 2]) ∧
      (∃ buffer', s.encode (Array.replicate 8 7) 1 x = (.ok 7, buffer') ∧
        buffer'.toList = [7, 1, 0, 1, 1, 1, 2, 7]) ∧
      (∃ position needed remaining buffer', s.encode (Array.replicate 5 7) 1 x =
        (.error (.bufferOverflow position needed remaining), buffer') ∧ 1 ≤ position ∧
          position + remaining = 5 ∧ remaining < needed) ∧
      ∃ buffer', s.encodeAt (Array.replicate 6 7) 0 x 1 = (.ok 5, buffer') ∧
        buffer'.toList = [0, 1, 1, 1, 2, 7] := by
  intro s x
  have hbuilt : s.Built := ⟨_, _, _, Chain.builtFrom _⟩
  have hencode : s.encode (Array.replicate 6 7) 0 x = (.ok 6, #[1, 0, 1, 1, 1, 2]) := by
    decide +kernel
  obtain ⟨bytes, hframes, hframesAt⟩ := (encode_framed s x).1 ⟨_, _, _, _, hencode⟩
  have hheader : s.header = [1] := by decide +kernel
  rw [hheader] at hframes
  -- One buffer shows what the bytes are, and they are the same everywhere else.
  obtain ⟨hlength, hbytes⟩ := hframes.bytes_eq hencode
  have hsix : ([1] ++ bytes).length = 6 := by rw [Nat.zero_add] at hlength; exact hlength.symm
  rw [hsix] at hbytes
  obtain rfl : bytes = [0, 1, 1, 1, 2] := (List.cons.inj hbytes).2
  refine ⟨hbuilt, hencode, ?_, ?_, ?_⟩
  · exact hframes.fits (Array.replicate 8 7) 1 (by decide)
  · exact hframes.overflows (Array.replicate 5 7) 1 (by decide) (by decide)
  · exact hframesAt.fits (Array.replicate 6 7) 0 (by decide)

end Serializer

end SchemaWire

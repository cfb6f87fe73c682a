import SchemaWire.Proofs.Program.Conformance
import SchemaWire.Proofs.Program.Soundness
import SchemaWire.Proofs.Serializer.Built
/-!
# Encoding and decoding at a version

What a serializer that has been built does at a version, in buffers:

* `Serializer.decodeAt_of_encodeAt` — **round trip**: what has been encoded is decoded as its normal
  form, up to the same offset.
* `Serializer.encodeAt_of_decodeAt` — **the way back**: what has been decoded, from whatever bytes,
  is encoded again in at most as many, and in the same ones where no number is a varint.
* `Serializer.encodeAt_iff_conforms` — **acceptance**: a value is encoded exactly if it conforms to
  the layout at the version and the buffer has room; neither the level nor the tag encoding matters.

Each of them is the statement about programs, carried over the offsets of buffers
(`Serializer.decodeWith_of_reads`, `Serializer.exists_of_decodeWith`,
`Script.writeInto_eq_ok_iff`).
-/

namespace SchemaWire

namespace Serializer

variable {s : Serializer} {schema : Schema} {root : TypeExpr} {settings : Settings}
  {version : Version} {input buffer buffer' : Array UInt8} {offset e : Nat} {x : Value}

/-- **The normal form of a value** at a version: the value that is decoded where it was encoded. -/
def normalForm (s : Serializer) (version : Version) (x : Value) : Value :=
  (s.layout.snapshot version).normalize s.layout x

/-- A value that has its normal form already. -/
def IsNormal (s : Serializer) (version : Version) (x : Value) : Prop :=
  (s.layout.snapshot version).IsNormal s.layout x

/-- Some buffer takes the encoding of a value. -/
def Accepts (s : Serializer) (version : Version) (x : Value) : Prop :=
  ∃ (buffer : Array UInt8) (offset e : Nat) (buffer' : Array UInt8),
    s.encodeAt buffer offset x version = (.ok e, buffer')

/-! ### Decoders at an offset -/

/-- A decoder that reads back some bytes does so wherever they lie in an input. -/
theorem decodeWith_of_reads {d : Decoder Value} {bytes : List UInt8}
    (hd : ∀ r : Reader, r.format = s.format → r.depth = 0 → bytes <+: r.ahead →
      d r = .ok x (r.advance bytes.length))
    (hoffset : offset ≤ input.size) (hbytes : bytes <+: input.toList.drop offset) :
    s.decodeWith input offset d = .ok (x, offset + bytes.length) := by
  unfold decodeWith Reader.start
  rw [if_pos hoffset]
  simp only
  rw [hd _ rfl rfl hbytes]
  rfl

/-- What a decoder reads from an input it reads from the bytes between the two offsets. -/
theorem exists_of_decodeWith {d : Decoder Value} {P : Value → List UInt8 → Prop}
    (hd : ∀ r x r', r.format = s.format → r.depth = 0 → d r = .ok x r' →
      ∃ bytes, bytes <+: r.ahead ∧ r' = r.advance bytes.length ∧ P x bytes)
    (h : s.decodeWith input offset d = .ok (x, e)) :
    offset ≤ e ∧ ∃ bytes, bytes.length = e - offset ∧
      bytes = (input.toList.drop offset).take (e - offset) ∧ P x bytes := by
  unfold decodeWith Reader.start at h
  -- A reader that starts outside the input has not read anything.
  by_cases hoffset : offset ≤ input.size
  · rw [if_pos hoffset] at h
    simp only at h
    split at h
    · next y r' hy =>
      cases h
      obtain ⟨bytes, hbytes, rfl, hP⟩ := hd _ _ _ rfl rfl hy
      -- The end is the offset and the bytes that were read, so these are the ones in between.
      have hlength : bytes.length = offset + bytes.length - offset := by omega
      refine ⟨Nat.le_add_right _ _, bytes, hlength, ?_, hP⟩
      change bytes = (input.toList.drop offset).take (offset + bytes.length - offset)
      rw [← hlength]
      exact List.prefix_iff_eq_take.1 hbytes
    · cases h
  · rw [if_neg hoffset] at h
    cases h

/-- Bytes that have been written lie where they have been written. -/
theorem prefix_drop_of_written {bytes : List UInt8} (hoffset : offset ≤ buffer.size)
    (hbuffer' : buffer'.toList = buffer.toList.take offset ++ bytes ++ buffer.toList.drop e) :
    offset ≤ buffer'.size ∧ bytes <+: buffer'.toList.drop offset := by
  -- The part before the offset has not been touched.
  have hlength : (buffer.toList.take offset).length = offset :=
    List.length_take_of_le (by rwa [Array.length_toList])
  refine ⟨?_, ?_⟩
  · rw [← Array.length_toList, hbuffer', List.length_append, List.length_append, hlength]
    omega
  · rw [hbuffer', List.append_assoc, List.drop_left' hlength]
    exact List.prefix_append _ _

/-! ### Programs at an offset -/

/-- Inside a serializer the decoder of a program starts with all of its room. -/
theorem decode_eq (p : Program) {r : Reader} (h : r.depth = 0) :
    p.decode r = p.decodeLayout (p.decodeRecord maxDepth) p.root r := by
  rw [Program.decode, h, Nat.sub_zero]

namespace BuiltFrom

theorem scriptAt_eq (h : s.BuiltFrom schema root settings) (version : Version) (x : Value) :
    s.scriptAt version x = (s.programAt settings.tagEncoding version).script maxDepth x := by
  rw [scriptAt, h.programFor_eq]

/-- What has been encoded, seen from the program: a valid script and its bytes at the offset. -/
theorem encodeAt_eq_ok_iff (h : s.BuiltFrom schema root settings) :
    s.encodeAt buffer offset x version = (.ok e, buffer') ↔
      ((s.programAt settings.tagEncoding version).script maxDepth x).Valid ∧
        e = offset + (((s.programAt settings.tagEncoding version).script maxDepth x).bytes
          s.format).length ∧ e ≤ buffer.size ∧
        buffer'.toList = buffer.toList.take offset ++
          ((s.programAt settings.tagEncoding version).script maxDepth x).bytes s.format ++
          buffer.toList.drop e := by
  rw [encodeAt, h.scriptAt_eq, Script.writeInto_eq_ok_iff]

/-- Wherever the bytes of a value lie, they are decoded as its normal form. -/
theorem decodeAt_of_prefix (h : s.BuiltFrom schema root settings)
    (hvalid : (s.scriptAt version x).Valid) (hoffset : offset ≤ input.size)
    (hbytes : (s.scriptAt version x).bytes s.format <+: input.toList.drop offset) :
    s.decodeAt input offset version = .ok (s.normalForm version x,
      offset + ((s.scriptAt version x).bytes s.format).length) := by
  rw [h.scriptAt_eq] at hvalid hbytes ⊢
  have hproper := h.proper version
  -- What a valid script writes is read back as the normal form.
  have hreads := Program.reads_decodeLayout hproper hproper.root hvalid
  rw [snapshot_programAt] at hreads
  rw [decodeAt, h.programFor_eq]
  refine decodeWith_of_reads (fun r hformat hdepth hprefix => ?_) hoffset hbytes
  rw [decode_eq _ hdepth]
  exact hreads r hformat hprefix

/-- What has been encoded is decoded as its normal form. -/
theorem decodeAt_eq_normalForm (h : s.BuiltFrom schema root settings)
    (hencode : s.encodeAt buffer offset x version = (.ok e, buffer')) :
    s.decodeAt buffer' offset version = .ok (s.normalForm version x, e) := by
  -- The bytes of the script lie at the offset, and the program reads them back from there.
  obtain ⟨hvalid, rfl, hroom, hbuffer'⟩ := Script.writeInto_eq_ok_iff.1 hencode
  obtain ⟨hoffset, hbytes⟩ := prefix_drop_of_written (by omega) hbuffer'
  exact h.decodeAt_of_prefix hvalid hoffset hbytes

/-- What has been decoded rewrites the bytes between the two offsets. -/
theorem rewrites_of_decodeAt (h : s.BuiltFrom schema root settings)
    (hdecode : s.decodeAt input offset version = .ok (x, e)) :
    offset ≤ e ∧ ∃ bytes, bytes.length = e - offset ∧
      bytes = (input.toList.drop offset).take (e - offset) ∧
      (s.programAt settings.tagEncoding version).Rewrites maxDepth s.layout x bytes := by
  have hproper := h.proper version
  rw [decodeAt, h.programFor_eq] at hdecode
  refine exists_of_decodeWith (fun r y r' hformat hdepth hy => ?_) hdecode
  rw [decode_eq _ hdepth] at hy
  exact Program.yields_decodeLayout hproper hproper.root r y r' hformat hy

theorem isNormal_of_decodeAt (h : s.BuiltFrom schema root settings)
    (hdecode : s.decodeAt input offset version = .ok (x, e)) : s.IsNormal version x := by
  obtain ⟨-, bytes, -, -, hrewrites⟩ := h.rewrites_of_decodeAt hdecode
  rw [IsNormal, ← s.snapshot_programAt settings.tagEncoding]
  exact hrewrites.normal

theorem normalForm_eq_self (h : s.BuiltFrom schema root settings) (hx : s.IsNormal version x) :
    s.normalForm version x = x := by
  rw [IsNormal, ← s.snapshot_programAt settings.tagEncoding] at hx
  rw [normalForm, ← s.snapshot_programAt settings.tagEncoding]
  exact Snapshot.normalize_eq_self (h.proper version).nodup_declared hx

/-- A value has a script at a version exactly if it conforms. -/
theorem valid_scriptAt_iff_conforms (h : s.BuiltFrom schema root settings) :
    (s.scriptAt version x).Valid ↔ s.layout.Conforms version x := by
  have hproper := h.proper version
  rw [h.scriptAt_eq, Layout.Conforms, ← s.snapshot_programAt settings.tagEncoding]
  exact Program.valid_iff_admits hproper hproper.root

/-- What is encoded is what conforms, in buffers that have room for it. -/
theorem exists_size (h : s.BuiltFrom schema root settings) (x : Value) (version : Version) :
    ∃ size, ∀ (buffer : Array UInt8) (offset : Nat),
      (∃ e buffer', s.encodeAt buffer offset x version = (.ok e, buffer')) ↔
        s.layout.Conforms version x ∧ offset + size ≤ buffer.size := by
  refine ⟨((s.scriptAt version x).bytes s.format).length, fun buffer offset => ?_⟩
  rw [← h.valid_scriptAt_iff_conforms]
  constructor
  · rintro ⟨e, buffer', hencode⟩
    -- What has been written ends where the script does, and that was inside the buffer.
    obtain ⟨hscript, rfl, hroom, -⟩ := Script.writeInto_eq_ok_iff.1 hencode
    exact ⟨hscript, hroom⟩
  · rintro ⟨hscript, hroom⟩
    exact ⟨_, Script.exists_writeInto_eq_ok hscript hroom⟩

/-- A value is accepted exactly if it conforms. -/
theorem accepts_iff_conforms (h : s.BuiltFrom schema root settings) :
    s.Accepts version x ↔ s.layout.Conforms version x := by
  obtain ⟨size, hsize⟩ := h.exists_size x version
  constructor
  · rintro ⟨buffer, offset, hencode⟩
    exact ((hsize buffer offset).1 hencode).1
  · intro hconforms
    -- Enough room makes acceptance a question of the value alone.
    refine ⟨Array.replicate size 0, 0, (hsize _ 0).2 ⟨hconforms, ?_⟩⟩
    rw [Array.size_replicate, Nat.zero_add]

end BuiltFrom

/-! ### The statements -/

/-- **Round trip.** What has been encoded at a version is decoded at this version as its normal
form, which ends where the encoding ended. A value that has its normal form is decoded as it was. -/
theorem decodeAt_of_encodeAt (hs : s.Built)
    (h : s.encodeAt buffer offset x version = (.ok e, buffer')) :
    s.decodeAt buffer' offset version = .ok (s.normalForm version x, e) ∧
      s.IsNormal version (s.normalForm version x) ∧
      (s.IsNormal version x → s.normalForm version x = x) := by
  obtain ⟨schema, root, settings, hs⟩ := hs
  have hdecode := hs.decodeAt_eq_normalForm h
  exact ⟨hdecode, hs.isNormal_of_decodeAt hdecode, hs.normalForm_eq_self⟩

/-- A chain of two, written before its records had a size. Of its nulls, one is not of the form that
is read, and the sizes come back as zero. -/
theorem decodeAt_of_encodeAt_chain :
    let s := Chain.serializer { level := .level3 }
    let x := Value.record "Chain" [("flag", .wrapped (some ⟨.bool, true⟩)),
      ("next", .record "Chain" [("flag", .null), ("next", .null)])]
    let y := Value.record "Chain" [("flag", .wrapped (some ⟨.bool, true⟩)),
      ("next", .record "Chain" [("flag", .wrapped none), ("next", .null),
        ("size", .scalar ⟨.u16, 0⟩)]), ("size", .scalar ⟨.u16, 0⟩)]
    s.Built ∧ s.encodeAt #[7, 7, 7, 7, 7, 7] 1 x 0 = (.ok 5, #[7, 1, 0, 0, 2, 7]) ∧
      s.decodeAt #[7, 1, 0, 0, 2, 7] 1 0 = .ok (y, 5) := by
  intro s x y
  have hbuilt : s.Built := ⟨_, _, _, Chain.builtFrom _⟩
  have hencode : s.encodeAt #[7, 7, 7, 7, 7, 7] 1 x 0 = (.ok 5, #[7, 1, 0, 0, 2, 7]) := by
    decide +kernel
  have hnormal : s.normalForm 0 x = y := by decide +kernel
  exact ⟨hbuilt, hencode, hnormal ▸ (decodeAt_of_encodeAt hbuilt hencode).1⟩

/-- **The way back.** What has been decoded at a version, from whatever bytes, is encoded at this
version into every buffer that has room, in at most as many bytes; from these it is decoded again.
At the first level, and with tags of a fixed width, they are the bytes that it was decoded from. -/
theorem encodeAt_of_decodeAt (hs : s.BuiltFrom schema root settings)
    (h : s.decodeAt input offset version = .ok (x, e)) :
    ∃ bytes : List UInt8, offset ≤ e ∧ bytes.length ≤ e - offset ∧
      (∀ (buffer : Array UInt8) (start : Nat), start + bytes.length ≤ buffer.size →
        ∃ buffer', s.encodeAt buffer start x version = (.ok (start + bytes.length), buffer') ∧
          buffer'.toList = buffer.toList.take start ++ bytes ++
            buffer.toList.drop (start + bytes.length) ∧
          s.decodeAt buffer' start version = .ok (x, start + bytes.length)) ∧
      (s.level = .level1 → settings.tagEncoding ≠ .varint →
        bytes = (input.toList.drop offset).take (e - offset)) := by
  obtain ⟨hoffset, read, hlength, hread, hrewrites⟩ := hs.rewrites_of_decodeAt h
  refine ⟨((s.programAt settings.tagEncoding version).script maxDepth x).bytes s.format, hoffset,
    hlength ▸ hrewrites.retraces.1, fun buffer start hroom => ?_, fun hlevel htag => ?_⟩
  · obtain ⟨buffer', hencode⟩ :
        ∃ buffer', s.encodeAt buffer start x version = (.ok (start + _), buffer') := by
      rw [encodeAt, hs.scriptAt_eq]
      exact Script.exists_writeInto_eq_ok hrewrites.valid hroom
    obtain ⟨-, -, -, hbuffer'⟩ := hs.encodeAt_eq_ok_iff.1 hencode
    refine ⟨buffer', hencode, hbuffer', ?_⟩
    -- What has been decoded has its normal form, so it comes back as it is.
    rw [hs.decodeAt_eq_normalForm hencode, hs.normalForm_eq_self (hs.isNormal_of_decodeAt h)]
  · have hformat : s.format = Level.level1.format := congrArg Level.format hlevel
    rw [← hread]
    refine (hrewrites.retraces.2 ⟨?_, ?_, htag⟩).symm
    · exact congrArg WireFormat.varintLengths hformat
    · exact congrArg WireFormat.varintIntegers hformat

/-- A single record that has been read at the first level is written as the bytes that it was read
from. -/
theorem encodeAt_of_decodeAt_chain :
    let settings : Settings := { level := .level1 }
    let s := Chain.serializer settings
    let x := Value.record "Chain" [("flag", .wrapped (some ⟨.bool, true⟩)), ("next", .null),
      ("size", .scalar ⟨.u16, 258⟩)]
    s.BuiltFrom Chain.schema (.record "Chain") settings ∧
      s.decodeAt #[7, 0, 1, 1, 1, 2, 7] 1 1 = .ok (x, 6) ∧
      ∃ buffer', s.encodeAt #[9, 9, 9, 9, 9, 9] 0 x 1 = (.ok 5, buffer') ∧
        buffer'.toList = [0, 1, 1, 1, 2, 9] := by
  intro settings s x
  have hbuilt : s.BuiltFrom Chain.schema (.record "Chain") settings := Chain.builtFrom settings
  have hdecode : s.decodeAt #[7, 0, 1, 1, 1, 2, 7] 1 1 = .ok (x, 6) := by decide +kernel
  obtain ⟨bytes, -, -, hencode, hexact⟩ := encodeAt_of_decodeAt hbuilt hdecode
  obtain rfl : bytes = [0, 1, 1, 1, 2] := hexact rfl (by decide)
  obtain ⟨buffer', hwritten, hbuffer', -⟩ := hencode #[9, 9, 9, 9, 9, 9] 0 (by decide)
  exact ⟨hbuilt, hdecode, buffer', hwritten, hbuffer'⟩

/-- **Acceptance.** A value is encoded at a version exactly if it conforms to the layout there and the
buffer has room for it. Conformance does not depend on the level or the
tag encoding, so every serializer of the same type takes the same values. -/
theorem encodeAt_iff_conforms (hs : s.BuiltFrom schema root settings) (x : Value)
    (version : Version) :
    (∃ size, ∀ (buffer : Array UInt8) (offset : Nat),
      (∃ e buffer', s.encodeAt buffer offset x version = (.ok e, buffer')) ↔
        s.layout.Conforms version x ∧ offset + size ≤ buffer.size) ∧
      ∀ (t : Serializer) (other : Settings), t.BuiltFrom schema root other →
        t.layout = s.layout ∧ (s.Accepts version x ↔ t.Accepts version x) := by
  refine ⟨hs.exists_size x version, fun t other ht => ?_⟩
  have hlayout : t.layout = s.layout :=
    Schema.layout_eq_of_tagEncoding ht.eq_ofLayout.1 hs.eq_ofLayout.1
  -- Acceptance is conformance to the same layout on both sides.
  refine ⟨hlayout, ?_⟩
  rw [hs.accepts_iff_conforms, ht.accepts_iff_conforms, hlayout]

/-- A chain that holds no flag is refused at every level, as it does not conform. -/
theorem encodeAt_iff_conforms_chain :
    let settings : Settings := { level := .level2 }
    let s := Chain.serializer settings
    let x := Value.record "Chain" [("next", .null)]
    s.BuiltFrom Chain.schema (.record "Chain") settings ∧
      ∀ (buffer : Array UInt8) (offset e : Nat) (buffer' : Array UInt8),
        s.encodeAt buffer offset x 0 ≠ (.ok e, buffer') := by
  intro settings s x
  have hbuilt : s.BuiltFrom Chain.schema (.record "Chain") settings := Chain.builtFrom settings
  refine ⟨hbuilt, fun buffer offset e buffer' hencode => ?_⟩
  obtain ⟨size, hsize⟩ := (encodeAt_iff_conforms hbuilt x 0).1
  -- The value lacks the field `flag`, which is on the wire at version 0.
  obtain ⟨fields, hfields, -, hpresent⟩ := ((hsize buffer offset).1 ⟨e, buffer', hencode⟩).1
  obtain rfl : [("next", Value.null)] = fields := (Value.record.inj hfields).2
  have hflag := hpresent ⟨"flag", 0, .nullable (.primitive (Primitive.ofKind .bool).ensureWrapped)⟩
    (by decide)
  obtain ⟨y, hy, -⟩ := hflag
  cases hy

end Serializer

end SchemaWire

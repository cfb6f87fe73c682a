import SchemaWire.Proofs.Program.Scripts
/-!
# Tags, texts, packed booleans and counted members

The pieces of a value that neither a scalar nor another layout accounts for, in both directions.

* `reads_…`: a piece is read back from the bytes of its steps.
* `yields_…`: a piece that has been read can be written again. A number may have been read from more
  bytes than it takes (a varint can be padded), so the bytes may become fewer; where no number is a
  varint (`Program.FixedWidth`) they are the same. `Retraces` is this relation between what has been
  read and what is written again, and pieces compose along it (`Retraces.append`).
* `Program.decodeCounted` is the rest of a list behind its count, which is held against what is left
  of the input.
-/

namespace SchemaWire

/-- Bytes are written again as at most as many, and where they are `exact` as the same ones. -/
def Retraces (exact : Prop) (bytes again : List UInt8) : Prop :=
  again.length ≤ bytes.length ∧ (exact → bytes = again)

namespace Retraces

variable {exact : Prop} {bytes again more moreAgain : List UInt8}

theorem refl (bytes : List UInt8) : Retraces exact bytes bytes := ⟨Nat.le_refl _, fun _ => rfl⟩

theorem append (h : Retraces exact bytes again) (h' : Retraces exact more moreAgain) :
    Retraces exact (bytes ++ more) (again ++ moreAgain) := by
  refine ⟨?_, fun he => by rw [h.2 he, h'.2 he]⟩
  rw [List.length_append, List.length_append]
  exact Nat.add_le_add h.1 h'.1

end Retraces

namespace Program

open Decoder

variable {p : Program} {format : WireFormat} {v : Value}

/-- No number that the program writes is a varint. -/
def FixedWidth (p : Program) : Prop :=
  p.format.varintLengths = false ∧ p.format.varintIntegers = false ∧ p.tagEncoding ≠ .varint

/-! ### Tags -/

/-- A tag that the encoding can carry is read back. -/
theorem reads_readTag {tag : UInt32} (h : tag ≤ p.tagEncoding.maxTag) (format : WireFormat) :
    p.readTag.Reads format ((p.tagStep tag).bytes format) tag := by
  have hnat : tag.toNat ≤ p.tagEncoding.maxTag.toNat := h
  unfold readTag tagStep
  -- One case for each tag encoding.
  cases hencoding : p.tagEncoding with
  | u8 =>
    have hmax : tag.toNat ≤ 0xff := by rwa [hencoding] at hnat
    -- The tag fits a byte, so nothing of it is lost.
    have hback : UInt32.ofNat tag.toUInt8.toNat = tag := by
      rw [UInt32.toNat_toUInt8, Nat.mod_eq_of_lt (Nat.lt_succ_of_le hmax), UInt32.ofNat_toNat]
    have hread : (Reader.readFixed 1).Reads format
        (format.byteOrder.bytes 1 tag.toUInt8.toNat) tag.toUInt8.toNat :=
      reads_readFixed tag.toUInt8.toNat_lt
    have := hread.map UInt32.ofNat
    rwa [hback] at this
  | u16 =>
    have hmax : tag.toNat ≤ 0xffff := by rwa [hencoding] at hnat
    have hback : UInt32.ofNat tag.toUInt16.toNat = tag := by
      rw [UInt32.toNat_toUInt16, Nat.mod_eq_of_lt (Nat.lt_succ_of_le hmax), UInt32.ofNat_toNat]
    have hread : (Reader.readFixed 2).Reads format
        (format.byteOrder.bytes 2 tag.toUInt16.toNat) tag.toUInt16.toNat :=
      reads_readFixed tag.toUInt16.toNat_lt
    have := hread.map UInt32.ofNat
    rwa [hback] at this
  | varint =>
    have hfits : tag.toUInt64.toNat < 2 ^ 32 := tag.toNat_lt
    have hread : (Reader.readVarint 32).Reads format (Varint.encode tag.toUInt64) tag.toUInt64 :=
      reads_readVarint (by decide) hfits
    have := hread.map UInt64.toUInt32
    rwa [UInt32.toUInt32_toUInt64] at this

/-- A word of 32 bits is not changed by being cut to them. -/
theorem toUInt64_toUInt32 {u : UInt64} (h : u.toNat < 2 ^ 32) : u.toUInt32.toUInt64 = u := by
  rw [← UInt64.toNat_inj, UInt32.toNat_toUInt64, UInt64.toNat_toUInt32, Nat.mod_eq_of_lt h]

/-- A tag that has been read is written again. -/
theorem yields_readTag :
    p.readTag.Yields format fun tag bytes =>
      Retraces p.FixedWidth bytes ((p.tagStep tag).bytes format) := by
  unfold readTag tagStep
  cases hencoding : p.tagEncoding with
  | u8 =>
    refine (yields_readFixed 1).bind ?_
    rintro n bytes ⟨hn, rfl⟩
    refine Yields.pure ?_
    have hback : (UInt32.ofNat n).toUInt8.toNat = n := by
      simp only [UInt32.toNat_toUInt8, UInt32.toNat_ofNat']
      omega
    rw [List.append_nil, Step.bytes, hback]
    exact Retraces.refl _
  | u16 =>
    refine (yields_readFixed 2).bind ?_
    rintro n bytes ⟨hn, rfl⟩
    refine Yields.pure ?_
    have hback : (UInt32.ofNat n).toUInt16.toNat = n := by
      simp only [UInt32.toNat_toUInt16, UInt32.toNat_ofNat']
      omega
    rw [List.append_nil, Step.bytes, hback]
    exact Retraces.refl _
  | varint =>
    refine (yields_readVarint (by decide)).bind ?_
    rintro u bytes ⟨hu, hle⟩
    refine Yields.pure ?_
    -- A varint of 32 bits has been read, so the word comes back from the tag.
    rw [List.append_nil, Step.bytes, toUInt64_toUInt32 hu]
    exact ⟨hle, fun hfixed => absurd hencoding hfixed.2.2⟩

/-! ### Texts -/

theorem fromUTF8?_toUTF8 (s : String) : String.fromUTF8? s.toUTF8 = some s := by
  unfold String.fromUTF8?
  exact dif_pos s.isValidUTF8

theorem toUTF8_of_fromUTF8? {bytes : ByteArray} {s : String}
    (h : String.fromUTF8? bytes = some s) : s.toUTF8 = bytes := by
  unfold String.fromUTF8? at h
  split at h <;> cases h
  rfl

/-- A text whose length fits is read back. -/
theorem reads_decodeText {s : String} (h : s.toUTF8.size < 2 ^ 32) (format : WireFormat) :
    decodeText.Reads format ((textScript (.text s)).bytes format) (.text s) := by
  have hlength : s.toUTF8.data.toList.length = s.toUTF8.size := Array.length_toList
  have hscript : (textScript (.text s)).bytes format =
      (Step.length s.toUTF8.size).bytes format ++ (s.toUTF8.data.toList ++ []) := rfl
  rw [hscript]
  unfold decodeText
  -- The count, the bytes of the text, and what they decode to.
  refine (reads_readLength h).bind ((reads_take hlength).bind ?_)
  rw [Array.toArray_toList, fromUTF8?_toUTF8]
  exact Reads.pure (Value.text s)

/-- A text that has been read is written again. -/
theorem yields_decodeText :
    decodeText.Yields p.format fun v bytes =>
      (textScript v).Valid ∧ (∃ s, v = .text s) ∧
        Retraces p.FixedWidth bytes ((textScript v).bytes p.format) := by
  unfold decodeText
  refine yields_readLength.bind ?_
  rintro n bytes ⟨hn, hle, hexact⟩
  refine (yields_take n).bind ?_
  rintro content consumed ⟨hlength, rfl⟩
  split
  · next s hs =>
    -- A text has one encoding only, so its length is the one that was read.
    have hcontent : s.toUTF8 = ⟨consumed.toArray⟩ := toUTF8_of_fromUTF8? hs
    have hsize : s.toUTF8.size = n := by
      rw [hcontent, ← hlength]
      rfl
    refine Yields.pure ⟨valid_textScript_iff.2 ⟨s, rfl, hsize ▸ hn⟩, ⟨s, rfl⟩, ?_⟩
    have hscript : (textScript (.text s)).bytes p.format =
        (Step.length n).bytes p.format ++ (consumed ++ []) := by
      change (Step.length s.toUTF8.size).bytes p.format ++ (s.toUTF8.data.toList ++ []) = _
      rw [hsize, hcontent]
    rw [hscript]
    exact Retraces.append ⟨hle, fun hfixed => hexact hfixed.1⟩ (Retraces.refl _)
  · exact Yields.throw _

/-! ### Packed booleans -/

/-- A packed null is read as the null of its nullable. -/
theorem reads_decodePacked_of_isNull {q : Primitive} (hwrapped : q.wrapped = true)
    (h : v.isNull = true) (format : WireFormat) :
    (decodePacked q.wrapped).Reads format ((packedScript q.wrapped v).bytes format)
      (Layout.primitive q).nullValue := by
  rw [packedScript_of_isNull h, hwrapped]
  exact (reads_readByte 0).bind (Reads.pure _)

/-- A packed boolean is read back. -/
theorem reads_decodePacked_box {q : Primitive} {b : Bool} (format : WireFormat) :
    (decodePacked q.wrapped).Reads format
      ((packedScript q.wrapped (q.box ⟨.bool, b⟩)).bytes format) (q.box ⟨.bool, b⟩) := by
  rw [packedScript_box]
  cases b
  · exact (reads_readByte 1).bind (Reads.pure _)
  · exact (reads_readByte 2).bind (Reads.pure _)

/-- What is read from a packed boolean is written again as the same byte. -/
theorem yields_decodePacked {q : Primitive} (hkind : q.kind = .bool) (hwrapped : q.wrapped = true) :
    (decodePacked q.wrapped).Yields format fun v bytes =>
      (packedScript q.wrapped v).Valid ∧ bytes = (packedScript q.wrapped v).bytes format ∧
        (v = (Layout.primitive q).nullValue ∨ ∃ b, v = q.box ⟨.bool, b⟩) := by
  -- The two booleans are boxed as the primitive has it.
  have hbox (b : Bool) : decodePacked.boolean q.wrapped b = q.box ⟨.bool, b⟩ := by
    unfold decodePacked.boolean Primitive.box
    cases q.wrapped <;> rfl
  -- The byte is determined by the number that it was matched with.
  have hbyte {byte : UInt8} {n : Nat} (h : byte.toNat = n) (hn : n < 256) : byte = UInt8.ofNat n :=
    UInt8.toNat_inj.1 (by rw [h, UInt8.toNat_ofNat', Nat.mod_eq_of_lt hn])
  unfold decodePacked
  refine yields_readByte.bind ?_
  rintro byte bytes rfl
  -- Three bytes are accepted: a null and the two booleans.
  split
  · next h =>
    refine Yields.pure ⟨?_, ?_, .inl (by rw [hwrapped]; rfl)⟩
    · exact (valid_packedScript_iff hkind).2 (.inl (by rw [hwrapped]; rfl))
    · rw [hwrapped, hbyte h (by decide)]
      rfl
  · next h =>
    rw [hbox]
    refine Yields.pure ⟨?_, ?_, .inr ⟨false, rfl⟩⟩
    · exact (valid_packedScript_iff hkind).2 (.inr ⟨_, rfl, hkind.symm⟩)
    · rw [packedScript_box, hbyte h (by decide)]
      rfl
  · next h =>
    rw [hbox]
    refine Yields.pure ⟨?_, ?_, .inr ⟨true, rfl⟩⟩
    · exact (valid_packedScript_iff hkind).2 (.inr ⟨_, rfl, hkind.symm⟩)
    · rw [packedScript_box, hbyte h (by decide)]
      rfl
  · exact Yields.throw _

/-! ### Counted members -/

/-- Reads the members of a list, as many as its count says, unless there cannot be so many. -/
def decodeCounted (p : Program) (call : TypeName → Decoder Value) (member : Layout) (count : Nat) :
    Decoder Value := do
  let limit := p.countLimit member (← get).remaining
  if count ≤ limit then
    return .list (← Decoder.replicate count (p.decodeLayout call member))
  else throw (.listTooLong count limit)

variable {call : TypeName → Decoder Value} {member : Layout} {count : Nat} {r r' : Reader}

/-- A list is read as its count and the members behind it. -/
theorem decodeLayout_list :
    p.decodeLayout call (.list member) = Reader.readLength >>= p.decodeCounted call member := by
  rw [decodeLayout]
  rfl

/-- What is left of the input is looked at before the first member. -/
theorem decodeCounted_apply (r : Reader) :
    p.decodeCounted call member count r =
      if count ≤ p.countLimit member r.remaining then
        (do return .list (← Decoder.replicate count (p.decodeLayout call member)) :
          Decoder Value) r
      else .error (.listTooLong count (p.countLimit member r.remaining)) r := by
  change (if count ≤ p.countLimit member r.remaining then _ else _ : Decoder Value) r = _
  split <;> rfl

theorem decodeCounted_of_le (h : count ≤ p.countLimit member r.remaining) :
    p.decodeCounted call member count r =
      (do return .list (← Decoder.replicate count (p.decodeLayout call member)) :
        Decoder Value) r := by
  rw [decodeCounted_apply, if_pos h]

/-- Members that have been read were not too many. -/
theorem decodeCounted_eq_ok_iff :
    p.decodeCounted call member count r = .ok v r' ↔
      count ≤ p.countLimit member r.remaining ∧
        (do return .list (← Decoder.replicate count (p.decodeLayout call member)) :
          Decoder Value) r = .ok v r' := by
  rw [decodeCounted_apply]
  by_cases h : count ≤ p.countLimit member r.remaining
  · rw [if_pos h, and_iff_right h]
  · rw [if_neg h]
    exact ⟨nofun, fun hd => absurd hd.1 h⟩

end Program

end SchemaWire

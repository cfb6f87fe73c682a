import SchemaWire.Proofs.Layout.Primitive
import SchemaWire.Proofs.Serializer.Header
import SchemaWire.Proofs.Wire.Spelling
/-!
# Varints are read from all of their spellings

Lengths and counts, tags, version headers and integers of a variable length are varints, and each of
them is read by something that is made of the word of one. So what holds of the reader of varints
holds of all of them (`Serializer.reads_every_spelling`): they are read from every spelling of the
word that is written for them, also from those that end in groups of zeros, and from no other bytes.
The writer has one spelling for each (`Varint.encode`), the reader takes as many as fit ten bytes.
-/

namespace SchemaWire

open Reader

namespace Program

variable {p : Program} {tag : UInt32} {r r' : Reader}

/-- A tag is read from every spelling of its word. -/
theorem readTag_eq_ok_iff (hvarint : p.tagEncoding = .varint) :
    p.readTag r = .ok tag r' ↔ r.Passes tag.toUInt64 r' := by
  -- A tag is a varint of 32 bits that is then cut to its width.
  have htag : p.readTag = (do ofExcept (.ok (← readVarint 32).toUInt32)) := by
    unfold readTag
    rw [hvarint]
    rfl
  rw [htag, readVarint_bind_eq_ok_iff (f := fun u => .ok u.toUInt32) (by decide)]
  constructor
  · rintro ⟨u, hlt, htag, hpass⟩
    cases htag
    rwa [toUInt64_toUInt32 hlt]
  · intro hpass
    refine ⟨tag.toUInt64, ?_, congrArg Except.ok (UInt32.toUInt32_toUInt64 tag), hpass⟩
    rw [UInt32.toNat_toUInt64]
    exact tag.toNat_lt

end Program

namespace Primitive

variable {q : Primitive} {format : WireFormat} {v : Value} {r r' : Reader}

/-- An integer of a variable length is read from every spelling of its word. -/
theorem decode_eq_ok_iff (hvarint : q.isVarint format = true) :
    q.decode format r = .ok v r' ↔
      ∃ s : Scalar, s.kind = q.kind ∧ v = q.box s ∧ r.Passes s.toWord r' := by
  have hinteger := isInteger_of_isVarint hvarint
  -- The bits of the kind bound the word, and the conversion refuses what is left.
  rw [decode_of_isVarint hvarint,
    readVarint_bind_eq_ok_iff (f := fun u => (q.kind.ofWord u).map q.box) q.kind.varintBits_le]
  constructor
  · rintro ⟨u, hlt, hv, hpass⟩
    obtain ⟨s, hs, rfl⟩ : ∃ s, q.kind.ofWord u = .ok s ∧ q.box s = v := by
      cases hs : q.kind.ofWord u with
      | ok s => exact ⟨s, rfl, by simpa [hs, Except.map] using hv⟩
      | error e => simp [hs, Except.map] at hv
    obtain ⟨hkind, rfl⟩ := ScalarKind.toWord_of_ofWord hinteger hlt hs
    exact ⟨s, hkind, rfl, hpass⟩
  · rintro ⟨s, hkind, rfl, hpass⟩
    rw [← hkind] at hinteger ⊢
    refine ⟨s.toWord, ScalarKind.toWord_lt hinteger, ?_, hpass⟩
    rw [ScalarKind.ofWord_toWord hinteger]
    rfl

end Primitive

namespace Serializer

variable {s : Serializer} {version : Version} {r r' : Reader}

/-- A version header is read from every spelling of its word, unless the version is unknown. -/
theorem readVersion_eq_ok_iff (hheader : s.versionHeader = true) :
    s.readVersion r = .ok version r' ↔
      version ≤ s.programs.maxVersion ∧ r.Passes version.toUInt64 r' := by
  -- The check of the header as a conversion of the varint, so that the rule for conversions
  -- applies.
  let known (u : UInt64) : Except DecodeError Version :=
    if s.programs.maxVersion < u.toUInt32 then .error (.unknownVersion u.toUInt32)
    else .ok u.toUInt32
  have hread : s.readVersion = (do ofExcept (known (← readVarint 32))) := by
    rw [readVersion_eq hheader]
    refine congrArg (readVarint 32 >>= ·) (funext fun u => ?_)
    by_cases hnew : s.programs.maxVersion < u.toUInt32
    · simp only [known, if_pos hnew]
      rfl
    · simp only [known, if_neg hnew]
      rfl
  have hknown {u : UInt64} :
      known u = .ok version ↔ u.toUInt32 = version ∧ version ≤ s.programs.maxVersion := by
    by_cases hnew : s.programs.maxVersion < u.toUInt32
    · simp only [known, if_pos hnew, reduceCtorEq, false_iff]
      rintro ⟨rfl, hle⟩
      exact UInt32.not_lt.2 hle hnew
    · simp only [known, if_neg hnew, Except.ok.injEq, iff_self_and]
      rintro rfl
      exact UInt32.not_lt.1 hnew
  rw [hread, readVarint_bind_eq_ok_iff (by decide)]
  constructor
  · rintro ⟨u, hlt, hu, hpass⟩
    obtain ⟨rfl, hle⟩ := hknown.1 hu
    rw [Program.toUInt64_toUInt32 hlt]
    exact ⟨hle, hpass⟩
  · rintro ⟨hle, hpass⟩
    refine ⟨version.toUInt64, ?_, hknown.2 ⟨UInt32.toUInt32_toUInt64 version, hle⟩, hpass⟩
    rw [UInt32.toNat_toUInt64]
    exact version.toNat_lt

/-- **Varints are read from all of their spellings.** At every width, what is read successfully is a
word that fits, and it is read from its varint continued by any number of groups of zeros that ten
bytes have room for; everything else is an error. The same holds of all that is read as a varint:
lengths and counts, tags, version headers, and integers of a variable length. Of the spellings of a
word, one is the varint that is written. -/
theorem reads_every_spelling (p : Program) (q : Primitive) (s : Serializer) :
    (∀ bits ≤ 64, ∀ u r r',
      readVarint bits r = .ok u r' ↔ u.toNat < 2 ^ bits ∧ r.Passes u r') ∧
    (∀ u zeros, Varint.padded u zeros = Varint.encode u ↔ zeros = 0) ∧
    (∀ r, r.format.varintLengths = true → ∀ n r',
      readLength r = .ok n r' ↔ n < 2 ^ 32 ∧ r.Passes (UInt64.ofNat n) r') ∧
    (p.tagEncoding = .varint → ∀ tag r r',
      p.readTag r = .ok tag r' ↔ r.Passes tag.toUInt64 r') ∧
    (s.versionHeader = true → ∀ version r r',
      s.readVersion r = .ok version r' ↔
        version ≤ s.programs.maxVersion ∧ r.Passes version.toUInt64 r') ∧
    (∀ format, q.isVarint format = true → ∀ v r r',
      q.decode format r = .ok v r' ↔
        ∃ i : Scalar, i.kind = q.kind ∧ v = q.box i ∧ r.Passes i.toWord r') :=
  ⟨fun _ hbits _ _ _ => readVarint_eq_ok_iff hbits, fun _ _ => Varint.padded_eq_encode_iff,
    fun _ hlengths _ _ => readLength_eq_ok_iff hlengths,
    fun htag _ _ _ => Program.readTag_eq_ok_iff htag,
    fun hheader _ _ _ => readVersion_eq_ok_iff hheader,
    fun _ hvarint _ _ _ => Primitive.decode_eq_ok_iff hvarint⟩

/-- The number one, spelled in three bytes, as it is read at every place where a varint stands. -/
theorem reads_every_spelling_of_one :
    let settings : Settings := { level := .level3, tagEncoding := .varint, versionHeader := true }
    let s := Chain.serializer settings
    let p := s.programAt .varint 1
    let q := (Primitive.ofKind .u16).withVarLength true
    let r : Reader := ⟨[0x81, 0x80, 0x00, 7], 0, 4, s.format, 0, rfl⟩
    readVarint 1 r = .ok 1 (r.advance 3) ∧ readLength r = .ok 1 (r.advance 3) ∧
      p.readTag r = .ok 1 (r.advance 3) ∧ s.readVersion r = .ok 1 (r.advance 3) ∧
      q.decode s.format r = .ok (.scalar ⟨.u16, 1⟩) (r.advance 3) := by
  intro settings s p q r
  obtain ⟨hvarint, -, hlength, htag, hversion, hinteger⟩ := reads_every_spelling p q s
  -- Two groups more than needed, which spell nothing.
  have hpass : r.Passes 1 (r.advance 3) := ⟨2, by decide, by decide, rfl⟩
  exact ⟨(hvarint 1 (by decide) 1 r _).2 ⟨by decide, hpass⟩,
    (hlength r rfl 1 _).2 ⟨by decide, hpass⟩, (htag rfl 1 r _).2 hpass,
    (hversion rfl 1 r _).2 ⟨by decide, hpass⟩,
    (hinteger s.format rfl _ r _).2 ⟨⟨.u16, 1⟩, rfl, rfl, hpass⟩⟩

/-- Zero is written in one byte and read from two, so what is read successfully need not be what is
written. -/
theorem zero_read_from_two_bytes :
    let r : Reader := ⟨[0x80, 0x00], 0, 2, Level.level3.format, 0, rfl⟩
    readVarint 32 r = .ok 0 (r.advance 2) ∧ (r.advance 2).ahead = [] ∧
      Varint.encode 0 = [0x00] ∧ readLength r = .ok 0 (r.advance 2) ∧
      ¬∀ bits, 1 ≤ bits → bits ≤ 64 → ∀ (u : UInt64) (r r' : Reader),
        readVarint bits r = .ok u r' → r.ahead = Varint.encode u ++ r'.ahead := by
  intro r
  have hread : readVarint 32 r = .ok 0 (r.advance 2) := rfl
  refine ⟨hread, rfl, rfl, rfl, fun hexact => ?_⟩
  have hbytes := hexact 32 (by decide) (by decide) 0 r _ hread
  cases hbytes

end Serializer

end SchemaWire

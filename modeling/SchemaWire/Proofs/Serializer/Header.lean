import SchemaWire.Proofs.Serializer.Codec
/-!
# Version headers

With a version header, a value is written behind the version at which it is encoded, and read at the
version that is found in front of it. Both versions are brought down to the newest one of the layout
(`Serializer.BuiltFrom.encodeVersion_le`), so a header is read back where it was written, and more
generally by every serializer whose layout has come as far (`Serializer.reads_readVersion`).
-/

namespace SchemaWire

open Decoder

namespace Serializer

variable {s t : Serializer} {schema : Schema} {root : TypeExpr} {settings : Settings}
  {version : Version} {input buffer buffer' : Array UInt8} {offset e : Nat} {x : Value}

/-! ### The header by itself -/

theorem readVersion_eq (hheader : s.versionHeader = true) :
    s.readVersion = (do
      let u ← Reader.readVarint 32
      if s.programs.maxVersion < u.toUInt32 then throw (.unknownVersion u.toUInt32)
      else return u.toUInt32) := by
  unfold readVersion
  rw [if_pos hheader]

/-- **A version is read back**, unless it is newer than all that are known. -/
theorem reads_readVersion (hheader : s.versionHeader = true)
    (h : version ≤ s.programs.maxVersion) (format : WireFormat) :
    s.readVersion.Reads format (Varint.encode version.toUInt64) version := by
  rw [readVersion_eq hheader, ← List.append_nil (Varint.encode _)]
  -- A version has 32 bits, as many as the reader asks for.
  have hlt : version.toUInt64.toNat < 2 ^ 32 := by
    rw [UInt32.toNat_toUInt64]
    exact version.toNat_lt
  refine (reads_readVarint (by decide) hlt).bind ?_
  rw [UInt32.toUInt32_toUInt64, if_neg (UInt32.not_lt.2 h)]
  exact Reads.pure version

/-- What one serializer reads at the version in a header another one reads as well, provided that
its layout is at least as new. -/
theorem simulates_readVersion (hs : s.versionHeader = true) (ht : t.versionHeader = true)
    (hnewest : s.programs.maxVersion ≤ t.programs.maxVersion) {format : WireFormat}
    {g : Value → Value} {d d' : Version → Decoder Value}
    (h : ∀ version, version ≤ s.programs.maxVersion →
      (d' version).Simulates format g (d version)) :
    (t.readVersion >>= d').Simulates format g (s.readVersion >>= d) := by
  rw [readVersion_eq hs, readVersion_eq ht, bind_assoc, bind_assoc]
  refine Simulates.bind_of_yields (yields_readVarint (by decide)) fun u => ?_
  -- A version that the first serializer knows the second one knows as well.
  by_cases hknown : u.toUInt32 ≤ s.programs.maxVersion
  · rw [if_neg (UInt32.not_lt.2 hknown),
      if_neg (UInt32.not_lt.2 (UInt32.le_trans hknown hnewest))]
    exact h u.toUInt32 hknown
  · rw [if_pos (UInt32.not_le.1 hknown)]
    exact Simulates.throw _ _

/-- What is read at one offset by two decoders. -/
theorem decodeWith_of_simulates {d d' : Decoder Value} {g : Value → Value}
    (hformat : t.format = s.format) (h : d'.Simulates s.format g d)
    (hd : s.decodeWith input offset d = .ok (x, e)) :
    t.decodeWith input offset d' = .ok (g x, e) := by
  -- Both readers start alike, from the same place of the same input.
  unfold decodeWith at hd ⊢
  rw [hformat]
  unfold Reader.start at hd ⊢
  by_cases hoffset : offset ≤ input.size
  · rw [if_pos hoffset] at hd ⊢
    simp only at hd ⊢
    split at hd
    · next y r hy =>
      cases hd
      obtain ⟨-, hy'⟩ := h _ _ _ rfl hy
      rw [hy']
    · cases hd
  · rw [if_neg hoffset] at hd
    cases hd

/-! ### Serializers with a header -/

namespace BuiltFrom

theorem versionHeader_eq (h : s.BuiltFrom schema root settings) :
    s.versionHeader = settings.versionHeader := by
  obtain ⟨-, handle, hs⟩ := h.eq_ofLayout
  rw [hs]
  rfl

theorem maxVersion_eq (h : s.BuiltFrom schema root settings) :
    s.programs.maxVersion = s.layout.newest := by
  rw [h.programs_eq, ProgramFamily.maxVersion_ofLayout]

/-- Nothing is encoded at a version above the newest one. -/
theorem encodeVersion_le (h : s.BuiltFrom schema root settings) :
    s.encodeVersion ≤ s.layout.newest := by
  obtain ⟨-, handle, hs⟩ := h.eq_ofLayout
  rw [← h.maxVersion_eq, hs]
  -- The version is clamped to the newest one when the serializer is made.
  unfold ofLayout
  cases settings.encodeVersion with
  | none => exact UInt32.le_refl _
  | some v =>
    change (if _ < v then _ else v) ≤ _
    split
    · exact UInt32.le_refl _
    · next hle => exact UInt32.not_lt.1 hle

/-- **What is written with a header**: the version and then the value. -/
theorem encode_eq_ok_iff (h : s.BuiltFrom schema root settings)
    (hheader : settings.versionHeader = true) :
    let p := s.programAt settings.tagEncoding s.encodeVersion
    let bytes := Varint.encode s.encodeVersion.toUInt64 ++ (p.script maxDepth x).bytes s.format
    s.encode buffer offset x = (.ok e, buffer') ↔
      (p.script maxDepth x).Valid ∧ e = offset + bytes.length ∧ e ≤ buffer.size ∧
        buffer'.toList = buffer.toList.take offset ++ bytes ++ buffer.toList.drop e := by
  intro p bytes
  -- The header is a step in front of the script, and such a step is always valid.
  have hscript : s.script x = .varint s.encodeVersion.toUInt64 :: p.script maxDepth x := by
    rw [script, h.versionHeader_eq, if_pos hheader, h.scriptAt_eq]
    rfl
  have hvalid : (s.script x).Valid ↔ (p.script maxDepth x).Valid := by
    rw [hscript, Script.valid_cons]
    exact and_iff_right trivial
  have hbytes : (s.script x).bytes s.format = bytes := by
    rw [hscript, Script.bytes_cons]
    rfl
  rw [encode, Script.writeInto_eq_ok_iff, hvalid, hbytes]

/-- **Whatever the bytes behind a version say is read**, if the version is known. -/
theorem decode_of_front (h : s.BuiltFrom schema root settings)
    (hheader : settings.versionHeader = true) (hversion : version ≤ s.layout.newest)
    (hvalid : ((s.programAt settings.tagEncoding version).script maxDepth x).Valid)
    {bytes : List UInt8} (hbytes : bytes = Varint.encode version.toUInt64 ++
      ((s.programAt settings.tagEncoding version).script maxDepth x).bytes s.format)
    (hoffset : offset ≤ input.size) (hfront : bytes <+: input.toList.drop offset) :
    s.decode input offset = .ok (s.normalForm version x, offset + bytes.length) := by
  have hproper := h.proper version
  have hreads := Program.reads_decodeLayout hproper hproper.root hvalid
  rw [snapshot_programAt] at hreads
  have hversion' := reads_readVersion (h.versionHeader_eq.trans hheader)
    (h.maxVersion_eq ▸ hversion) s.format
  refine decodeWith_of_reads (fun r hformat hdepth hahead => ?_) hoffset hfront
  subst hbytes
  -- The reader behind the version.
  let behind := r.advance (Varint.encode version.toUInt64).length
  have hfirst : s.readVersion r = .ok version behind :=
    hversion' r hformat ((List.prefix_append _ _).trans hahead)
  have hsecond := hreads behind hformat (drop_prefix_of_append hahead)
  have hdecode := decode_eq (s.programAt settings.tagEncoding version)
    (show behind.depth = 0 from hdepth)
  rw [bind_apply, hfirst]
  simp only
  rw [h.programFor_eq, hdecode, List.length_append, ← Reader.advance_advance]
  exact hsecond

/-- **Round trip with a header.** What has been encoded is decoded as its normal form at the version
at which it was encoded. -/
theorem decode_of_encode (h : s.BuiltFrom schema root settings)
    (hheader : settings.versionHeader = true)
    (hencode : s.encode buffer offset x = (.ok e, buffer')) :
    s.decode buffer' offset = .ok (s.normalForm s.encodeVersion x, e) := by
  obtain ⟨hvalid, rfl, hroom, hbuffer'⟩ := (h.encode_eq_ok_iff hheader).1 hencode
  obtain ⟨hoffset, hfront⟩ := prefix_drop_of_written (by omega) hbuffer'
  exact h.decode_of_front hheader h.encodeVersion_le hvalid rfl hoffset hfront

end BuiltFrom

end Serializer

end SchemaWire

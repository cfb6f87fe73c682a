import SchemaWire.Proofs.Program.Amplification
import SchemaWire.Proofs.Serializer.Locality
/-!
# How large a value is that has been decoded

Whatever a serializer decodes, it takes up memory in proportion to the bytes that it has been
decoded from, at a rate that is fixed with the layout, the level and the tag encoding
(`Serializer.nodeCount_le_of_decode`). The programs of the versions are finitely many, so one rate
serves all of them, and with it the version that a header may ask for.
-/

namespace SchemaWire

open Decoder

/-- One rate serves all versions of a layout. -/
theorem Layout.exists_nodeCount_le (a : Layout) (level : Level) (tagEncoding : TagEncoding) :
    ∃ c, ∀ version b v bytes,
      (Program.ofLayout a (a.versionAt version) level.format tagEncoding).Occupies b v bytes →
        v.nodeCount ≤ c * (bytes.length + 1) := by
  have hversion (w : Version) :=
    (Program.ofLayout a w level.format tagEncoding).exists_nodeCount_le
  choose rate hrate using hversion
  refine ⟨((0 :: a.versions).map rate).sum, fun version b v bytes h => ?_⟩
  refine (hrate _ b v bytes h).trans (Nat.mul_le_mul_right _ ?_)
  exact List.le_sum_of_mem (List.mem_map_of_mem (a.versionAt_mem version))

namespace Serializer

variable {s : Serializer} {schema : Schema} {root : TypeExpr} {settings : Settings}
  {version : Version} {input : Array UInt8} {offset e : Nat} {x : Value}

namespace BuiltFrom

theorem occupies_program (h : s.BuiltFrom schema root settings) (version : Version) :
    let p := s.programs.programFor version
    (p.decodeLayout (p.decodeRecord maxDepth) p.root).Yields s.format
      ((s.programAt settings.tagEncoding version).Occupies s.layout) := by
  rw [h.programFor_eq]
  exact Program.occupies_decodeLayout (h.proper version) (h.proper version).root

/-- A value that has been decoded occupies what lies between the two offsets. -/
theorem occupies_of_decodeAt (h : s.BuiltFrom schema root settings)
    (hdecode : s.decodeAt input offset version = .ok (x, e)) :
    offset ≤ e ∧ (s.programAt settings.tagEncoding version).Occupies s.layout x
      (input.extract offset e).toList := by
  -- Decoding at a version is running its program, which reads what the value occupies.
  have hdecode' := congrFun₂ (s.decodeAt_eq_decodeWith version) input offset
  rw [hdecode] at hdecode'
  obtain ⟨hle, bytes, -, hbytes, hx⟩ := exists_of_decodeWith
    (fun r x r' hformat _ hx => h.occupies_program version r x r' hformat hx) hdecode'.symm
  refine ⟨hle, ?_⟩
  have hextract := toList_extract input offset (e - offset)
  rw [Nat.add_sub_cancel' hle, ← hbytes] at hextract
  exact hextract ▸ hx

/-- With a header, it occupies what lies behind the version that it is decoded at. -/
theorem occupies_of_decode (h : s.BuiltFrom schema root settings)
    (hdecode : s.decode input offset = .ok (x, e)) :
    ∃ version start, offset ≤ start ∧ start ≤ e ∧
      (s.programAt settings.tagEncoding version).Occupies s.layout x
        (input.extract start e).toList := by
  rw [decode_eq_decodeWith] at hdecode
  have hyields := Yields.bind (Q := fun x bytes => ∃ version front more, bytes = front ++ more ∧
    (s.programAt settings.tagEncoding version).Occupies s.layout x more) s.local_readVersion
    fun version front _ => (h.occupies_program version).mono fun x more hx =>
      ⟨version, front, more, rfl, hx⟩
  obtain ⟨hle, _, hlength, hbytes, version, front, more, rfl, hx⟩ := exists_of_decodeWith
    (fun r x r' hformat _ hx => hyields r x r' hformat hx) hdecode
  rw [List.length_append] at hlength
  refine ⟨version, offset + front.length, Nat.le_add_right _ _, by omega, ?_⟩
  have hend : e = offset + front.length + more.length := by omega
  have hmore : (input.extract (offset + front.length) e).toList = more := by
    rw [hend, toList_extract, ← List.drop_drop]
    -- Behind the header, the bytes that have been read begin with those of the value.
    obtain ⟨rest, hrest⟩ : front ++ more <+: input.toList.drop offset :=
      hbytes ▸ List.take_prefix _ _
    rw [← hrest, List.append_assoc, List.drop_left, List.take_left]
  exact hmore ▸ hx

/-- A rate for the programs of a layout bounds what occupies a part of an input. -/
theorem nodeCount_le (h : s.BuiltFrom schema root settings) {rate start : Nat}
    (hrate : ∀ version b v bytes, (Program.ofLayout s.layout (s.layout.versionAt version)
      settings.level.format settings.tagEncoding).Occupies b v bytes →
        v.nodeCount ≤ rate * (bytes.length + 1))
    (hx : (s.programAt settings.tagEncoding version).Occupies s.layout x
      (input.extract start e).toList) (hstart : offset ≤ start) :
    x.nodeCount ≤ rate * (e - offset + 1) := by
  rw [programAt, format, h.level_eq] at hx
  have hlength : (input.extract start e).toList.length ≤ e - offset := by
    rw [Array.length_toList, Array.size_extract]
    omega
  calc x.nodeCount ≤ rate * ((input.extract start e).toList.length + 1) := hrate _ _ _ _ hx
    _ ≤ rate * (e - offset + 1) := Nat.mul_le_mul_left _ (Nat.add_le_add_right hlength 1)

end BuiltFrom

/-- **Input is not amplified without bound.** For each layout, level and tag encoding there is a
rate, the same for all inputs and all versions, such that a value that is decoded from `n` bytes has
at most so many times `n + 1` values in it. The bytes are shared out among these values, and every
list in it keeps within the limit for the bytes of its own members: their number divided by the
least size of a member, or 65536 where this size is zero. -/
theorem nodeCount_le_of_decode : ∃ rate : Layout → Level → TagEncoding → Nat,
    ∀ (s : Serializer) (schema : Schema) (root : TypeExpr) (settings : Settings),
      s.BuiltFrom schema root settings →
      (∀ version input offset x e, s.decodeAt input offset version = .ok (x, e) → offset ≤ e ∧
        x.nodeCount ≤ rate s.layout settings.level settings.tagEncoding * (e - offset + 1) ∧
        (s.programAt settings.tagEncoding version).Occupies s.layout x
          (input.extract offset e).toList) ∧
      ∀ input offset x e, s.decode input offset = .ok (x, e) → offset ≤ e ∧
        x.nodeCount ≤ rate s.layout settings.level settings.tagEncoding * (e - offset + 1) ∧
        ∃ version start, offset ≤ start ∧ start ≤ e ∧
          (s.programAt settings.tagEncoding version).Occupies s.layout x
            (input.extract start e).toList := by
  choose rate hrate using Layout.exists_nodeCount_le
  refine ⟨rate, fun s schema root settings h => ⟨fun version input offset x e hdecode => ?_,
    fun input offset x e hdecode => ?_⟩⟩
  · obtain ⟨hle, hx⟩ := h.occupies_of_decodeAt hdecode
    exact ⟨hle, h.nodeCount_le (hrate _ _ _) hx (Nat.le_refl _), hx⟩
  · obtain ⟨version, start, hstart, hend, hx⟩ := h.occupies_of_decode hdecode
    exact ⟨hstart.trans hend, h.nodeCount_le (hrate _ _ _) hx hstart, version, start, hstart, hend,
      hx⟩

/-- A chain of two, from before its records had a size, is read from four bytes as seven values: the
sizes come without any. -/
theorem nodeCount_le_of_decode_chain :
    let settings : Settings := { level := .level3 }
    let s := Chain.serializer settings
    let y := Value.record "Chain" [("flag", .wrapped (some ⟨.bool, true⟩)),
      ("next", .record "Chain" [("flag", .wrapped none), ("next", .null),
        ("size", .scalar ⟨.u16, 0⟩)]), ("size", .scalar ⟨.u16, 0⟩)]
    s.BuiltFrom Chain.schema (.record "Chain") settings ∧
      s.decodeAt #[7, 1, 0, 0, 2, 7] 1 0 = .ok (y, 5) ∧ y.nodeCount = 7 ∧
      (∃ rate : Layout → Level → TagEncoding → Nat,
        y.nodeCount ≤ rate s.layout settings.level settings.tagEncoding * 5) ∧
      (s.programAt settings.tagEncoding 0).Occupies s.layout y [1, 0, 0, 2] := by
  intro settings s y
  have hbuilt : s.BuiltFrom Chain.schema (.record "Chain") settings := Chain.builtFrom settings
  have hdecode : s.decodeAt #[7, 1, 0, 0, 2, 7] 1 0 = .ok (y, 5) := by decide +kernel
  obtain ⟨rate, hrate⟩ := nodeCount_le_of_decode
  obtain ⟨-, hle, hoccupies⟩ := (hrate s _ _ _ hbuilt).1 0 _ 1 y 5 hdecode
  exact ⟨hbuilt, hdecode, by decide +kernel, ⟨rate, hle⟩, hoccupies⟩

end Serializer

end SchemaWire

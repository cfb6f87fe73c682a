import SchemaWire.Proofs.Program.Locality
import SchemaWire.Proofs.Serializer.Header
/-!
# Decoding from part of an input

What a serializer decodes lies between two offsets, and nothing outside of them has a part in it
(`Serializer.Confined`). The same bytes are decoded alike wherever they stand in whatever input, and
an input that ends before the second offset is found to be too short, whether its end falls into the
version header, a number, a text or between two members of a list
(`Serializer.decode_confined`).
-/

namespace SchemaWire

open Decoder

namespace Serializer

variable {s : Serializer} {schema : Schema} {root : TypeExpr} {settings : Settings}
  {version : Version} {input : Array UInt8} {offset e : Nat} {x : Value}

/-- **Decoding that is confined to what it consumes**: to the bytes between the two offsets, which
lie inside the input. They may stand anywhere, in front of anything and behind anything; and without
the last of them the input is too short. -/
def Confined (decode : Array UInt8 → Nat → Except DecodeError (Value × Nat)) : Prop :=
  ∀ (input : Array UInt8) (offset : Nat) (x : Value) (e : Nat), decode input offset = .ok (x, e) →
    offset ≤ e ∧ e ≤ input.size ∧
      (∀ (other : Array UInt8) (start : Nat), start + (e - offset) ≤ other.size →
        other.extract start (start + (e - offset)) = input.extract offset e →
          decode other start = .ok (x, start + (e - offset))) ∧
      ∀ n, offset ≤ n → n < e →
        ∃ err, decode (input.extract 0 n) offset = .error err ∧ err.IsShortage

/-! ### Decoders at an offset -/

theorem toList_extract (input : Array UInt8) (offset n : Nat) :
    (input.extract offset (offset + n)).toList = (input.toList.drop offset).take n := by
  rw [Array.toList_extract, List.extract_eq_take_drop, Nat.add_sub_cancel_left]

theorem le_size_of_decodeWith {d : Decoder Value} (h : s.decodeWith input offset d = .ok (x, e)) :
    offset ≤ input.size := by
  by_contra hoffset
  unfold decodeWith Reader.start at h
  rw [if_neg hoffset] at h
  cases h

/-- A decoder that finds the rest of an input too short fails on this input. -/
theorem decodeWith_of_short {d : Decoder Value} (hoffset : offset ≤ input.size)
    (hd : ∀ r : Reader, r.format = s.format → r.ahead = input.toList.drop offset →
      ∃ err r', d r = .error err r' ∧ err.IsShortage) :
    ∃ err, s.decodeWith input offset d = .error err ∧ err.IsShortage := by
  unfold decodeWith Reader.start
  rw [if_pos hoffset]
  simp only
  obtain ⟨err, r', herr, hshort⟩ :=
    hd ⟨input.toList.drop offset, offset, input.size - offset, s.format, 0, by simp⟩ rfl rfl
  rw [herr]
  exact ⟨err, rfl, hshort⟩

/-- Only readers that stand outside of all records matter to a serializer. -/
theorem decodeWith_congr {d d' : Decoder Value}
    (h : ∀ r : Reader, r.format = s.format → r.depth = 0 → d r = d' r) :
    (fun input offset => s.decodeWith input offset d) =
      fun input offset => s.decodeWith input offset d' := by
  funext input offset
  unfold decodeWith Reader.start
  by_cases hoffset : offset ≤ input.size
  · rw [if_pos hoffset]
    simp only
    rw [h _ rfl rfl]
  · rw [if_neg hoffset]

/-- **Local decoders are confined.** -/
theorem confined_decodeWith {d : Decoder Value} (hd : d.Local s.format) :
    Confined fun input offset => s.decodeWith input offset d := by
  intro input offset x e h
  have hoffset := le_size_of_decodeWith h
  obtain ⟨hle, bytes, hlength, hbytes, hneeds⟩ :=
    exists_of_decodeWith (fun r x r' hformat _ hx => hd r x r' hformat hx) h
  have hfront : bytes <+: input.toList.drop offset := hbytes ▸ List.take_prefix _ _
  have hroom := hfront.length_le
  rw [hlength, List.length_drop, Array.length_toList] at hroom
  refine ⟨hle, by omega, fun other start hstart hsame => ?_, fun n hn hlt => ?_⟩
  · -- The bytes lie in the other input as well.
    have hthere : bytes <+: other.toList.drop start := by
      have hsame := congrArg Array.toList hsame
      rw [toList_extract, show e = offset + (e - offset) by omega, toList_extract,
        Nat.add_sub_cancel_left, ← hbytes] at hsame
      exact hsame ▸ List.take_prefix _ _
    rw [← hlength] at hstart ⊢
    exact decodeWith_of_reads (fun r hformat _ hahead => hneeds.reads r hformat hahead)
      ((Nat.le_add_right _ _).trans hstart) hthere
  · -- What is left of the input is a part of the bytes, and not all of them.
    have hsize : (input.extract 0 n).size = n := by
      rw [Array.size_extract]
      omega
    have hrest : ((input.extract 0 n).toList.drop offset).length = n - offset := by
      rw [List.length_drop, Array.length_toList, hsize]
    have hpart : (input.extract 0 n).toList <+: input.toList := by
      have htake := toList_extract input 0 n
      rw [Nat.zero_add, List.drop_zero] at htake
      exact htake ▸ List.take_prefix _ _
    refine decodeWith_of_short (hn.trans_eq hsize.symm) fun r hformat hahead => ?_
    rw [← hahead] at hrest
    refine hneeds.short r hformat ?_ (by omega)
    exact List.prefix_of_prefix_length_le (hahead ▸ hpart.drop offset) hfront (by omega)

/-! ### Decoders of a serializer -/

theorem local_readVersion (s : Serializer) : s.readVersion.Local s.format := by
  -- A header is a varint; without one nothing is read.
  by_cases hheader : s.versionHeader
  · rw [readVersion_eq hheader]
    refine (local_readVarint (by decide)).bind fun u => ?_
    split
    · exact Local.throw _
    · exact Local.pure _
  · unfold readVersion
    rw [if_neg hheader]
    exact Local.pure _

/-- Decoding is reading the root with all of the room for records. -/
theorem decodeAt_eq_decodeWith (s : Serializer) (version : Version) :
    (fun input offset => s.decodeAt input offset version) =
      fun input offset => s.decodeWith input offset (
        let p := s.programs.programFor version
        p.decodeLayout (p.decodeRecord maxDepth) p.root) := by
  unfold decodeAt
  exact decodeWith_congr fun r _ hdepth => decode_eq _ hdepth

theorem decode_eq_decodeWith (s : Serializer) :
    s.decode = fun input offset => s.decodeWith input offset (do
      let version ← s.readVersion
      let p := s.programs.programFor version
      p.decodeLayout (p.decodeRecord maxDepth) p.root) := by
  unfold decode
  refine decodeWith_congr fun r hformat hdepth => ?_
  rw [bind_apply, bind_apply]
  cases hversion : s.readVersion r with
  | error err r' => rfl
  | ok version r' =>
    -- The header is read without moving into a record.
    obtain ⟨bytes, -, rfl, -⟩ := s.local_readVersion r version r' hformat hversion
    exact decode_eq _ hdepth

namespace BuiltFrom

theorem local_program (h : s.BuiltFrom schema root settings) (version : Version) :
    let p := s.programs.programFor version
    (p.decodeLayout (p.decodeRecord maxDepth) p.root).Local s.format := by
  rw [h.programFor_eq]
  exact Program.local_decodeLayout (h.proper version) (h.proper version).root

theorem confined_decodeAt (h : s.BuiltFrom schema root settings) (version : Version) :
    Confined fun input offset => s.decodeAt input offset version := by
  rw [decodeAt_eq_decodeWith]
  exact confined_decodeWith (h.local_program version)

theorem confined_decode (h : s.BuiltFrom schema root settings) : Confined s.decode := by
  rw [decode_eq_decodeWith]
  exact confined_decodeWith (s.local_readVersion.bind h.local_program)

end BuiltFrom

/-- **Decoding is confined to what it consumes**, with a version header and at any given version:
what has been decoded from between two offsets is decoded from the same bytes in every other input,
and an input that ends before the second offset is too short. -/
theorem decode_confined (hs : s.Built) :
    Confined s.decode ∧ ∀ version, Confined fun input offset => s.decodeAt input offset version := by
  obtain ⟨schema, root, settings, hs⟩ := hs
  exact ⟨hs.confined_decode, hs.confined_decodeAt⟩

/-- A chain of two behind its version is decoded elsewhere in another input; it cannot be decoded
where the last byte of its size is missing. -/
theorem decode_confined_chain :
    let s := Chain.serializer { level := .level3, versionHeader := true }
    let x := Value.record "Chain" [("flag", .wrapped (some ⟨.bool, false⟩)),
      ("next", .record "Chain" [("flag", .wrapped (some ⟨.bool, true⟩)), ("next", .null),
        ("size", .scalar ⟨.u16, 5⟩)]), ("size", .scalar ⟨.u16, 258⟩)]
    s.Built ∧ s.decode #[7, 1, 1, 0, 2, 5, 1, 130, 2, 7] 1 = .ok (x, 9) ∧
      s.decode #[1, 1, 0, 2, 5, 1, 130, 2, 9, 9] 0 = .ok (x, 8) ∧
      ∃ err, s.decode #[7, 1, 1, 0, 2, 5, 1, 130] 1 = .error err ∧ err.IsShortage := by
  intro s x
  have hbuilt : s.Built := ⟨_, _, _, Chain.builtFrom _⟩
  have hdecode : s.decode #[7, 1, 1, 0, 2, 5, 1, 130, 2, 7] 1 = .ok (x, 9) := by decide +kernel
  obtain ⟨-, -, helsewhere, hshort⟩ := (decode_confined hbuilt).1 _ _ _ _ hdecode
  exact ⟨hbuilt, hdecode, helsewhere #[1, 1, 0, 2, 5, 1, 130, 2, 9, 9] 0 (by decide) (by decide),
    hshort 8 (by decide) (by decide)⟩

end Serializer

end SchemaWire

import SchemaWire.Proofs.Program.Congruence
import SchemaWire.Proofs.Serializer.Built
/-!
# Encoding into a buffer that grows

Encoding fails for want of room or because the value has no encoding. That the value is to blame is
never reported as an overflow (`Program.neverOverflows_script`), so a serializer that tries larger
and larger buffers comes to an end with every value, whether or not it has an encoding, and to what
any buffer with enough room would have shown at once (`Serializer.encodeGrowing_eq_encode`).
-/

namespace SchemaWire

namespace Serializer

theorem neverOverflows_script (s : Serializer) (x : Value) : (s.script x).NeverOverflows := by
  have hvalue := (s.programs.programFor s.encodeVersion).neverOverflows_script maxDepth x
  unfold script
  split
  · exact Script.neverOverflows_cons.2 ⟨nofun, hvalue⟩
  · exact hvalue

/-- What an encoding into a growing buffer comes to. -/
theorem encodeGrowing_eq_outcome (s : Serializer) (x : Value) :
    s.encodeGrowing x = (s.script x).outcome s.format :=
  Script.writeGrowing_eq_outcome (s.neverOverflows_script x) (by decide)

/-- A growing buffer ends up with the bytes of the script, if it is valid. -/
theorem encodeGrowing_eq_ok_iff {s : Serializer} {x : Value} {bytes : Array UInt8} :
    s.encodeGrowing x = .ok bytes ↔
      (s.script x).Valid ∧ bytes = ((s.script x).bytes s.format).toArray := by
  rw [encodeGrowing_eq_outcome, Script.outcome, Script.valid_iff_fault?]
  cases (s.script x).fault? with
  | none => simp [eq_comm]
  | some e => simp

/-- The bytes in a growing buffer are those in a buffer that has just enough room. -/
theorem encode_of_encodeGrowing {s : Serializer} {x : Value} {bytes : Array UInt8}
    (h : s.encodeGrowing x = .ok bytes) :
    s.encode (Array.replicate bytes.size 0) 0 x = (.ok bytes.size, bytes) := by
  obtain ⟨hvalid, rfl⟩ := encodeGrowing_eq_ok_iff.1 h
  refine Script.writeInto_eq_ok_iff.2 ⟨hvalid, ?_, ?_, ?_⟩
  · rw [List.size_toArray, Nat.zero_add]
  · rw [Array.size_replicate]
  · rw [Array.toList_replicate, List.drop_replicate, Nat.sub_self, List.replicate_zero,
      List.append_nil, List.take_zero, List.nil_append]

/-- **Encoding into a buffer that grows** is encoding into a buffer that is large enough. With every
serializer and every value, whether or not it has an encoding:

* trying buffers of twice the size, each with what has been written into the one before, comes to an
  end, and to one result only;
* this is never an overflow;
* every buffer above a certain size shows the same when the value is encoded at its beginning: the
  same error, or the same bytes and their number. -/
theorem encodeGrowing_eq_encode (s : Serializer) (x : Value) :
    (∀ result, GrowsTo (s.encode · 0 x) (Array.replicate firstSize 0) result ↔
      result = s.encodeGrowing x) ∧
    (∀ position needed remaining,
      s.encodeGrowing x ≠ .error (.bufferOverflow position needed remaining)) ∧
    ∃ size, ∀ buffer : Array UInt8, size ≤ buffer.size →
      (∀ e, s.encodeGrowing x = .error e → (s.encode buffer 0 x).1 = .error e) ∧
      ∀ bytes, s.encodeGrowing x = .ok bytes → (s.encode buffer 0 x).1 = .ok bytes.size ∧
        (s.encode buffer 0 x).2.extract 0 bytes.size = bytes := by
  have hscript := s.neverOverflows_script x
  rw [encodeGrowing_eq_outcome]
  refine ⟨fun result => ?_, fun position needed remaining he => ?_, ?_⟩
  · have hgrows : GrowsTo (s.encode · 0 x) (Array.replicate firstSize 0)
        ((s.script x).outcome s.format) :=
      -- The loop gives one result at most, and the outcome of the script is one.
      Script.growsTo_outcome hscript (by decide)
    constructor
    · intro h
      exact h.unique hgrows
    · rintro rfl
      exact hgrows
  · cases Script.outcome_ne_overflow hscript he
  · exact ⟨_, fun buffer hroom => Script.writeInto_of_room hroom⟩

/-- A chain of eighty whose last flag is a text: the first buffer is full before the flag is
reached, and the second one shows what is wrong with it. Of a chain of one, every buffer with enough room
holds the same five bytes. -/
theorem encodeGrowing_eq_encode_chain :
    let s := Chain.serializer { level := .level1 }
    let link (flag next : Value) := Value.record "Chain" [("flag", flag), ("next", next),
      ("size", .scalar ⟨.u16, 258⟩)]
    let one := link (.wrapped (some ⟨.bool, true⟩)) .null
    let eighty := Nat.repeat (link .null) 79 (link (.text "up") .null)
    let wrong := EncodeError.typeMismatch "wrapped bool" "string"
    s.Built ∧
      (s.encode (Array.replicate 64 0) 0 eighty).1 = .error (.bufferOverflow 64 1 0) ∧
      GrowsTo (s.encode · 0 eighty) (Array.replicate 64 0) (.error wrong) ∧
      (∃ size, ∀ buffer : Array UInt8, size ≤ buffer.size →
        (s.encode buffer 0 eighty).1 = .error wrong) ∧
      ∃ size, ∀ buffer : Array UInt8, size ≤ buffer.size →
        (s.encode buffer 0 one).1 = .ok 5 ∧
          (s.encode buffer 0 one).2.extract 0 5 = #[0, 1, 1, 1, 2] := by
  intro s link one eighty wrong
  -- The loop as it runs: one buffer is enough for a link, and eighty links are refused only after
  -- it has grown.
  have hone : s.encodeGrowing one = .ok #[0, 1, 1, 1, 2] := by
    rw [encodeGrowing_eq_outcome]
    decide +kernel
  have heighty : s.encodeGrowing eighty = .error wrong := by
    rw [encodeGrowing_eq_outcome]
    decide +kernel
  obtain ⟨hgrows, -, size, hroom⟩ := encodeGrowing_eq_encode s eighty
  obtain ⟨-, -, size', hroom'⟩ := encodeGrowing_eq_encode s one
  refine ⟨⟨_, _, _, Chain.builtFrom _⟩, by decide +kernel, (hgrows _).2 heighty.symm, ?_, ?_⟩
  · exact ⟨size, fun buffer hbuffer => (hroom buffer hbuffer).1 wrong heighty⟩
  · exact ⟨size', fun buffer hbuffer => (hroom' buffer hbuffer).2 _ hone⟩

end Serializer

end SchemaWire

import SchemaWire.Proofs.Program.Counting
import SchemaWire.Proofs.Program.Nesting
import SchemaWire.Proofs.Serializer.Locality
/-!
# The bound on nesting

At most 256 records may be nested in one another, those included that are already open around a
cursor. What counts is how deeply a value nests along the fields that are on the wire
(`Serializer.nestingAt`); records that stand side by side do not add up, nor do values that are
written one after another.

* `Program.BoundsExactly` — a value is written and read back if the bound is kept and is refused for
  its depth if it is not, on both sides alike.
* `Serializer.nesting_bounded` — this holds of all values that conform but for their depth; and from
  no bytes at all is a value read that nests more deeply.
-/

namespace SchemaWire

/-- **Conformance at any depth**: conformance to a layout at a version for some bound on nesting. -/
def Layout.ConformsAtAnyDepth (root : Layout) (version : Version) (v : Value) : Prop :=
  ∃ room, root.Admits (root.snapshot version) ((root.snapshot version).RecordConforms room) v

namespace Program

variable {p : Program} {big : Nat} {x : Value}

/-- **The bound on nesting is exact** for a value `x` in which some number of records are nested,
which takes `bytes` and is read back as `y`. A cursor may have records open around it already. -/
structure BoundsExactly (p : Program) (x y : Value) (nesting : Nat)
    (bytes : WireFormat → List UInt8) : Prop where
  written : ∀ w : Writer, w.depth ≤ maxDepth →
    w.position + (bytes w.format).length ≤ w.buffer.size → w.depth + nesting ≤ maxDepth →
      ∃ w', p.encode x w = .ok () w' ∧ w'.depth = w.depth ∧
        w'.written.toList = w.written.toList ++ bytes w.format
  notWritten : ∀ w : Writer, w.depth ≤ maxDepth →
    w.position + (bytes w.format).length ≤ w.buffer.size → maxDepth < w.depth + nesting →
      ∃ w', p.encode x w = .error (.depthExceeded maxDepth) w'
  read : ∀ r : Reader, r.format = p.format → r.depth ≤ maxDepth → bytes p.format <+: r.ahead →
    r.depth + nesting ≤ maxDepth →
      ∃ r', p.decode r = .ok y r' ∧ r'.depth = r.depth ∧
        r'.ahead = r.ahead.drop (bytes p.format).length
  notRead : ∀ r : Reader, r.format = p.format → r.depth ≤ maxDepth → bytes p.format <+: r.ahead →
    maxDepth < r.depth + nesting → ∃ r', p.decode r = .error (.depthExceeded maxDepth) r'

/-- **A value that can be written with enough room** is bounded by nothing but the room. -/
theorem boundsExactly (hp : p.Proper) (h : (p.script big x).Valid) :
    p.BoundsExactly x (p.snapshot.normalize p.root x) (p.snapshot.nesting x)
      fun format => (p.script (p.snapshot.nesting x) x).bytes format := by
  have hfollows (room : Nat) : Script.Follows (p.snapshot.nesting x ≤ room)
      (.depthExceeded maxDepth) (p.script big x) (p.script room x) :=
    follows_layoutScript hp hp.root h
  -- With as much room as the value needs, its script is the one that is known to be valid.
  rw [(hfollows _).1 (Nat.le_refl _)]
  refine ⟨fun w hw hroom hfits => ?_, fun w hw hroom hdeep => ?_,
    fun r hr hdepth hbytes hfits => ?_, fun r hr hdepth hbytes hdeep => ?_⟩
  · have hscript : p.script (maxDepth - w.depth) x = p.script big x := (hfollows _).1 (by omega)
    obtain ⟨w', hw'⟩ := Script.run_eq_ok_iff.2 ⟨h, hroom⟩
    have hencode : p.encode x w = .ok () w' := by rwa [encode, hscript]
    exact ⟨w', hencode, depth_of_encode hw hencode, (Script.written_of_run_eq_ok hw').2.2⟩
  · exact ((hfollows (maxDepth - w.depth)).2 (by omega)).run_eq_error h hroom
  · exact ⟨_, reads_of_nesting_le hp hp.root h (by omega) r hr hbytes, rfl, rfl⟩
  · exact fails_decodeLayout hp hp.root h (by omega) r hr hbytes

/-- No reader has more than all of the room left. -/
theorem yields_decode_nesting (format : WireFormat) :
    p.decode.Yields format fun v _ => v.nesting ≤ maxDepth := by
  intro r v r' hr h
  obtain ⟨bytes, hbytes, hr', hv⟩ := yields_nesting_le r v r' hr h
  exact ⟨bytes, hbytes, hr', hv.trans (Nat.sub_le _ _)⟩

end Program

namespace Serializer

variable {s : Serializer} {schema : Schema} {root : TypeExpr} {settings : Settings}
  {version : Version} {input : Array UInt8} {offset e : Nat} {x : Value}

/-- How many records are nested in a value, along the fields that are on the wire at a version. -/
def nestingAt (s : Serializer) (version : Version) (x : Value) : Nat :=
  (s.layout.snapshot version).nesting x

/-- What a value takes on the wire at a version, if there is room for all its records. -/
def bytesAt (s : Serializer) (version : Version) (x : Value) (format : WireFormat) : List UInt8 :=
  ((s.programs.programFor version).script (s.nestingAt version x) x).bytes format

namespace BuiltFrom

theorem boundsExactly (h : s.BuiltFrom schema root settings)
    (hconforms : s.layout.ConformsAtAnyDepth version x) :
    (s.programs.programFor version).BoundsExactly x (s.normalForm version x)
      (s.nestingAt version x) (s.bytesAt version x) := by
  have hproper := h.proper version
  -- Accepted at some depth is written with some room, so the program bounds the value exactly.
  obtain ⟨room, hadmits⟩ := hconforms
  rw [← s.snapshot_programAt settings.tagEncoding] at hadmits
  have hbounds := Program.boundsExactly hproper
    ((Program.valid_iff_admits hproper hproper.root).2 hadmits)
  rw [s.snapshot_programAt] at hbounds
  unfold bytesAt
  rw [h.programFor_eq]
  exact hbounds

end BuiltFrom

/-- What is decoded from whatever bytes keeps the bound. -/
theorem nesting_le_of_decode
    -- With or without a header, what is decoded is what the program of the version returns.
    (hdecode : s.decodeAt input offset version = .ok (x, e) ∨ s.decode input offset = .ok (x, e)) :
    x.nesting ≤ maxDepth := by
  have hprogram (version : Version) : (s.programs.programFor version).decode.Yields s.format
      fun v _ => v.nesting ≤ maxDepth := Program.yields_decode_nesting s.format
  rcases hdecode with hdecode | hdecode
  · obtain ⟨-, _, -, -, hx⟩ :=
      exists_of_decodeWith (fun r v r' hr _ hv => hprogram version r v r' hr hv) hdecode
    exact hx
  · have hread : (s.readVersion >>= fun version => (s.programs.programFor version).decode).Yields
        s.format fun v _ => v.nesting ≤ maxDepth :=
      Decoder.Yields.bind s.local_readVersion fun version _ _ => hprogram version
    obtain ⟨-, _, -, -, hx⟩ :=
      exists_of_decodeWith (fun r v r' hr _ hv => hread r v r' hr hv) hdecode
    exact hx

/-- **The bound on nesting.** A value that conforms but for its depth is written and read exactly if
its records and those already open are no more than 256, and is refused for its depth otherwise; a
success leaves the depth as it was. From whatever bytes, no value is read that nests more deeply. A
cursor that counts the records that are open, one by one, comes to the same. -/
theorem nesting_bounded (hs : s.BuiltFrom schema root settings) (version : Version) :
    let p := s.programs.programFor version
    (∀ x : Value, s.layout.ConformsAtAnyDepth version x →
      p.BoundsExactly x (s.normalForm version x) (s.nestingAt version x) (s.bytesAt version x)) ∧
    (∀ (r r' : Reader) (v : Value), r.depth ≤ maxDepth → p.decode r = .ok v r' →
      r.depth + v.nesting ≤ maxDepth ∧ r'.depth = r.depth) ∧
    (∀ (input : Array UInt8) (offset : Nat) (v : Value) (e : Nat),
      (s.decodeAt input offset version = .ok (v, e) ∨ s.decode input offset = .ok (v, e)) →
        v.nesting ≤ maxDepth) ∧
    ∀ fuel, maxDepth ≤ fuel →
      (∀ (x : Value) (w : Writer), w.depth ≤ maxDepth →
        p.encodeCounting fuel x w = p.encode x w) ∧
      ∀ r : Reader, r.depth ≤ maxDepth → p.decodeCounting fuel r = p.decode r := by
  -- Each part is a fact about the program of the version.
  refine ⟨fun x hconforms => hs.boundsExactly hconforms, fun r r' v hr hv => ?_,
    fun input offset v e hv => nesting_le_of_decode hv, fun fuel hfuel => ⟨fun x w hw => ?_,
      fun r hr => ?_⟩⟩
  · obtain ⟨_, -, -, hle⟩ := Program.yields_nesting_le r v r' rfl hv
    exact ⟨by omega, Program.depth_of_decode hr hv⟩
  · exact Program.encodeCounting_eq hw hfuel
  · exact Program.decodeCounting_eq hr hfuel

/-- Of a chain of two, a cursor with 254 open records takes both and one with 255 none, on either
side. -/
theorem nesting_bounded_chain :
    let s := Chain.serializer { level := .level3 }
    let p := s.programs.programFor 0
    let x := Value.record "Chain" [("flag", .wrapped (some ⟨.bool, true⟩)),
      ("next", .record "Chain" [("flag", .wrapped none), ("next", .null)])]
    let writer (depth : Nat) : Writer := ⟨#[9, 9, 9, 9, 9], 1, #[], p.format, depth, by decide⟩
    let reader (depth : Nat) : Reader := ⟨[1, 0, 0, 2, 9], 0, 5, p.format, depth, rfl⟩
    s.BuiltFrom Chain.schema (.record "Chain") { level := .level3 } ∧
      s.layout.ConformsAtAnyDepth 0 x ∧ s.nestingAt 0 x = 2 ∧
      (∃ w', p.encode x (writer 254) = .ok () w' ∧ w'.depth = 254 ∧
        w'.written.toList = [1, 0, 0, 2]) ∧
      (∃ w', p.encode x (writer 255) = .error (.depthExceeded maxDepth) w') ∧
      (∃ r', p.decode (reader 254) = .ok (s.normalForm 0 x) r' ∧ r'.depth = 254 ∧ r'.ahead = [9]) ∧
      (∃ r', p.decode (reader 255) = .error (.depthExceeded maxDepth) r') := by
  intro s p x writer reader
  have hbuilt : s.BuiltFrom Chain.schema (.record "Chain") { level := .level3 } := Chain.builtFrom _
  have hconforms : s.layout.Conforms 0 x :=
    hbuilt.accepts_iff_conforms.1 ⟨#[9, 9, 9, 9], 0, 4, #[1, 0, 0, 2], by decide +kernel⟩
  have hnesting : s.nestingAt 0 x = 2 := by decide +kernel
  -- Two records, one in the other, in four bytes.
  have hbytes : s.bytesAt 0 x p.format = [1, 0, 0, 2] := by decide +kernel
  have hexact : p.BoundsExactly x (s.normalForm 0 x) (s.nestingAt 0 x) (s.bytesAt 0 x) :=
    (nesting_bounded hbuilt 0).1 x ⟨maxDepth, hconforms⟩
  rw [hnesting] at hexact
  have hroom (depth : Nat) : (writer depth).position + (s.bytesAt 0 x p.format).length ≤
      (writer depth).buffer.size := by
    rw [hbytes]
    exact Nat.le_refl 5
  have hahead (depth : Nat) : s.bytesAt 0 x p.format <+: (reader depth).ahead :=
    ⟨[9], by rw [hbytes]; rfl⟩
  refine ⟨hbuilt, ⟨maxDepth, hconforms⟩, hnesting, ?_, ?_, ?_, ?_⟩
  · obtain ⟨w', hw', hdepth, hwritten⟩ :=
      hexact.written (writer 254) (by decide) (hroom 254) (by decide)
    have hformat : (writer 254).format = p.format := rfl
    rw [hformat, hbytes] at hwritten
    exact ⟨w', hw', hdepth, hwritten⟩
  · exact hexact.notWritten (writer 255) (by decide) (hroom 255) (by decide)
  · obtain ⟨r', hr', hdepth, hrest⟩ :=
      hexact.read (reader 254) rfl (by decide) (hahead 254) (by decide)
    exact ⟨r', hr', hdepth, by rw [hrest, hbytes]; rfl⟩
  · exact hexact.notRead (reader 255) rfl (by decide) (hahead 255) (by decide)

end Serializer

end SchemaWire

import SchemaWire.Proofs.Program.Appending
import SchemaWire.Proofs.Serializer.Framing
import SchemaWire.Proofs.Serializer.WellFormed
/-!
# Later versions only append

As the fields of a record come in the order of their versions, a record that gets new fields gets
them at its end. So where nothing else changes between two versions (`Layout.SettledBetween`), what
is written at the later one begins with what is written at the earlier one, and a reader of the
earlier version stops where the new fields begin (`Serializer.encodeAt_later_appends`).
-/

namespace SchemaWire

/-! ### An example

Tours with their stops. Since version 1 a tour may have a guide, and since version 2 a stop has a
length. -/

namespace Tour

/-- The declaration of a stop. -/
def stop : RecordDecl where
  name := "Stop"
  fields := [{ name := "place", type := .text },
    { name := "minutes", type := .scalar .u16, added := 2 }]

/-- The declaration of a tour. -/
def decl : RecordDecl where
  name := "Tour"
  fields := [{ name := "stops", type := .list (.record "Stop") },
    { name := "guide", type := .nullable .text, added := 1 }]

/-- A schema of the two. -/
def schema : Schema := { records := [decl, stop] }

/-- The layout of a stop. -/
def stopLayout : Layout :=
  .record "Stop" [⟨"place", 0, .text⟩, ⟨"minutes", 2, .primitive (Primitive.ofKind .u16)⟩]

/-- The layout of a tour. -/
def layout : Layout :=
  .record "Tour" [⟨"stops", 0, .list stopLayout⟩, ⟨"guide", 1, .nullable .text⟩]

/-- The serializer of tours under some settings. -/
def serializer (settings : Settings) : Serializer :=
  .ofLayout layout (⟨0, 0⟩, .ofLayout layout settings.level settings.tagEncoding) settings

theorem wireFields_stop : stop.wireFields = stop.fields := List.mergeSort_of_pairwise (by decide)

theorem wireFields_decl : decl.wireFields = decl.fields := List.mergeSort_of_pairwise (by decide)

theorem declared_schema : schema.Declared := by
  have hstop : stop.check = .ok () := by
    unfold RecordDecl.check
    rw [wireFields_stop]
    rfl
  have hcheck : decl.check = .ok () := by
    unfold RecordDecl.check
    rw [wireFields_decl]
    rfl
  exact (Schema.Declared.empty.append_record hcheck rfl).append_record hstop rfl

/-- Tours can be serialized under all settings. -/
theorem builtFrom (settings : Settings) :
    (serializer settings).BuiltFrom schema (.record "Tour") settings := by
  -- The layout is found by running the resolver on two records.
  suffices hlayout : schema.layout settings.tagEncoding (.record "Tour") = .ok layout by
    refine Serializer.builtFrom_of_layout declared_schema hlayout ?_
    rw [← ProgramFamily.isSome_compile_iff (Schema.spelledFirst_of_layout hlayout)]
    cases settings.level <;> cases settings.tagEncoding <;> decide +kernel
  refine Schema.layout_eq_ok_iff.2 ⟨by decide, ["Stop", "Tour"], ?_⟩
  refine (Schema.resolveRecord_eq_ok_iff (by decide)).2 ⟨decl, 1, _, rfl, rfl, rfl, ?_⟩
  rw [wireFields_decl]
  have hstop : schema.resolveRecord settings.tagEncoding 1 "Stop" "Tour.stops" ["Tour"] =
      .ok (stopLayout, ["Stop", "Tour"]) := by
    refine (Schema.resolveRecord_eq_ok_iff (by decide)).2 ⟨stop, 0, _, rfl, rfl, rfl, ?_⟩
    rw [wireFields_stop]
    rfl
  rw [decl, List.mapM_cons]
  refine Resolving.run_bind_eq_ok_iff.2 ⟨⟨"stops", 0, .list stopLayout⟩, ["Stop", "Tour"], ?_, rfl⟩
  refine Resolving.run_bind_eq_ok_iff.2 ⟨_, _, ?_, rfl⟩
  exact Resolving.run_bind_eq_ok_iff.2 ⟨_, _, hstop, rfl⟩

/-- The only way on from a tour is to its stops, and from there is none. -/
theorem eq_stop_of_leadsTo {version : Version} {name other : TypeName}
    (h : layout.LeadsTo version name other) : other = "Stop" := by
  -- Only the record of stops is referred to, and only by the list of the outer one.
  obtain ⟨f, hf, -, hrefers⟩ := h
  have hnode := Layout.record_mem_nodes (List.ne_nil_of_mem hf) rfl
  generalize layout.fieldsOf name = fields at hf hnode
  have hnodes : layout.nodes = [layout, .list stopLayout, stopLayout, .text,
    .primitive (Primitive.ofKind .u16), .nullable .text, .text] := rfl
  rw [hnodes] at hnode
  obtain ⟨-, rfl⟩ | ⟨-, rfl⟩ : (name = "Tour" ∧ fields = _) ∨ (name = "Stop" ∧ fields = _) := by
    simpa [layout, stopLayout] using hnode
  · obtain rfl | rfl := by simpa using hf
    · cases hrefers with
      | self h => cases h
      | list hmember =>
        cases hmember with
        | self h =>
          cases h
          rfl
    · cases hrefers with
      | self h => cases h
      | nullable hinner =>
        cases hinner with
        | self h => cases h
  · obtain rfl | rfl := by simpa using hf
    all_goals
      cases hrefers with
      | self h => cases h

/-- Up to version 1 the stops of a tour are as they were. -/
theorem settledBetween : layout.SettledBetween 0 1 "Tour" := by
  intro other hreach f hf
  obtain ⟨_, -, hlast⟩ := Relation.TransGen.tail'_iff.1 hreach
  -- Both fields of a stop are older than the two versions or younger than both.
  obtain rfl := eq_stop_of_leadsTo hlast
  have hstop : layout.fieldsOf "Stop" = [⟨"place", 0, .text⟩,
    ⟨"minutes", 2, .primitive (Primitive.ofKind .u16)⟩] := by decide
  rw [hstop] at hf
  obtain rfl | rfl := by simpa using hf
  · decide
  · decide

end Tour

namespace Serializer

variable {s : Serializer} {schema : Schema} {settings : Settings} {name : TypeName}
  {root : TypeExpr} {version later : Version} {x : Value}

/-- The fields of every record come in the order of their versions. -/
theorem BuiltFrom.pairwise_added (hs : s.BuiltFrom schema root settings) (name : TypeName) :
    (s.layout.fieldsOf name).Pairwise fun f g => f.added ≤ g.added := by
  -- Fields that are there come from a declaration, whose order on the wire is that of their
  -- versions.
  by_cases hnil : s.layout.fieldsOf name = []
  · rw [hnil]
    exact List.Pairwise.nil
  · have hwellFormed := hs.resolves.wellFormed hs.declared
      (Schema.spelledFirst_of_layout hs.eq_ofLayout.1)
    obtain ⟨-, -, -, -, hadded⟩ :=
      hwellFormed.fields name _ (Layout.record_mem_nodes hnil rfl)
    exact hadded

/-- What is accepted at a version has a script without faults there. -/
theorem accepts_iff_valid : s.Accepts version x ↔ (s.scriptAt version x).Valid := by
  constructor
  · rintro ⟨buffer, offset, e, buffer', hencode⟩
    exact (Script.writeInto_eq_ok_iff.1 hencode).1
  · intro hvalid
    -- A buffer that is large enough shows that a valid script is accepted.
    obtain ⟨buffer', hwrite, -⟩ := (frames_encodeAt hvalid).fits (Array.replicate _ 0) 0
      (by rw [Array.size_replicate, Nat.zero_add])
    exact ⟨_, _, _, buffer', hwrite⟩

/-- The fields that are on the wire at a version. -/
theorem present_programAt (s : Serializer) (tagEncoding : TagEncoding) (version : Version)
    (name : TypeName) : (s.programAt tagEncoding version).present name =
      (s.layout.fieldsOf name).filter fun f => f.added ≤ version :=
  congrFun (congrArg Snapshot.present (s.snapshot_programAt tagEncoding version)) name

/-- Programs of two versions agree on what a record leads to, if that is settled between them. -/
theorem agreesOn_of_settledBetween (s : Serializer) (tagEncoding : TagEncoding)
    (hversion : version ≤ later) (hsettled : s.layout.SettledBetween version later name) :
    (s.programAt tagEncoding version).AgreesOn (s.programAt tagEncoding later)
      (Relation.TransGen (s.layout.LeadsTo version) name) where
  format := rfl
  tagEncoding := rfl
  fieldsOf _ _ := rfl
  present other hother := by
    rw [present_programAt, present_programAt]
    refine List.filter_congr fun f hf => decide_eq_decide.2 ?_
    -- A field that is there later only would be a new one.
    constructor
    · intro hlater
      by_contra hnew
      exact hsettled other hother f hf ⟨UInt32.not_le.1 hnew, hlater⟩
    · intro hadded
      exact UInt32.le_trans hadded hversion
  closed other hother f hf next hnext := by
    rw [present_programAt, List.mem_filter] at hf
    exact hother.tail ⟨f, hf.1, of_decide_eq_true hf.2, hnext⟩

/-- **Later versions only append.** Take a record and two versions such that no record that it leads
to at the earlier one gets a new field up to the later one. Whatever can be encoded at the later
version can be encoded at the earlier one, and its bytes there are those that it begins with at the
later one. Wherever these lie, the earlier version decodes the beginning as the normal form that the
value has there, and stops where the new fields begin. -/
theorem encodeAt_later_appends (hs : s.BuiltFrom schema (.record name) settings)
    (hversion : version ≤ later) (hsettled : s.layout.SettledBetween version later name)
    (hx : s.Accepts later x) :
    s.Accepts version x ∧ ∃ bytes more,
      Frames (s.encodeAt · · x version) bytes ∧ Frames (s.encodeAt · · x later) (bytes ++ more) ∧
      ∀ (input : Array UInt8) (offset : Nat), offset ≤ input.size →
        bytes ++ more <+: input.toList.drop offset →
          s.decodeAt input offset version =
            .ok (s.normalForm version x, offset + bytes.length) := by
  have hlater := accepts_iff_valid.1 hx
  -- At both versions the record has the fields of the earlier one, and then the new ones.
  have hpresent := Layout.filter_added_le_eq_append (hs.pairwise_added name) hversion
  rw [← s.present_programAt settings.tagEncoding, ← s.present_programAt settings.tagEncoding]
    at hpresent
  -- Records that fields refer to are those that have to be settled.
  have hleads : ∀ f ∈ (s.programAt settings.tagEncoding version).present name,
      ∀ other, f.layout.RefersTo other →
        Relation.TransGen (s.layout.LeadsTo version) name other := by
    intro f hf other hother
    rw [present_programAt, List.mem_filter] at hf
    exact .single ⟨f, hf.1, of_decide_eq_true hf.2, hother⟩
  have hroot : s.layout.recordName? = some name := by
    cases hs.resolves.lays with
    | record h => exact h
  obtain ⟨hvalid, more, hbytes⟩ : (s.scriptAt version x).Valid ∧ ∃ more,
      (s.scriptAt later x).bytes s.format = (s.scriptAt version x).bytes s.format ++ more := by
    rw [hs.scriptAt_eq] at hlater ⊢
    rw [hs.scriptAt_eq]
    have hagree := s.agreesOn_of_settledBetween settings.tagEncoding hversion hsettled
    exact hagree.exists_bytes_eq_append rfl hpresent hleads hroot hlater s.format
  refine ⟨accepts_iff_valid.2 hvalid, _, more, frames_encodeAt hvalid, ?_, ?_⟩
  · rw [← hbytes]
    exact frames_encodeAt hlater
  · intro input offset hoffset hprefix
    exact hs.decodeAt_of_prefix hvalid hoffset ((List.prefix_append _ _).trans hprefix)

/-- A tour with a guide and two stops, as version 1 writes it: version 0 reads the stops. -/
theorem encodeAt_later_appends_tour :
    let s := Tour.serializer { level := .level3 }
    let stop (place : String) (minutes : UInt16) := Value.record "Stop"
      [("minutes", .scalar ⟨.u16, minutes⟩), ("place", .text place)]
    let x := Value.record "Tour" [("guide", .text "Ann"), ("stops", .list [stop "A" 7, stop "B" 9])]
    let y := Value.record "Tour" [("guide", .null), ("stops", .list [stop "A" 0, stop "B" 0])]
    s.layout.SettledBetween 0 1 "Tour" ∧
      s.encodeAt (Array.replicate 10 0) 0 x 1 = (.ok 10, #[2, 1, 65, 1, 66, 1, 3, 65, 110, 110]) ∧
      s.encodeAt (Array.replicate 5 0) 0 x 0 = (.ok 5, #[2, 1, 65, 1, 66]) ∧
      s.decodeAt #[2, 1, 65, 1, 66, 1, 3, 65, 110, 110] 0 0 = .ok (y, 5) := by
  intro s stop x y
  have hbuilt : s.BuiltFrom Tour.schema (.record "Tour") { level := .level3 } := Tour.builtFrom _
  have hlater : s.encodeAt (Array.replicate 10 0) 0 x 1 =
      (.ok 10, #[2, 1, 65, 1, 66, 1, 3, 65, 110, 110]) := by decide +kernel
  have hearlier : s.encodeAt (Array.replicate 5 0) 0 x 0 = (.ok 5, #[2, 1, 65, 1, 66]) := by
    decide +kernel
  have hnormal : s.normalForm 0 x = y := by decide +kernel
  have hversion : (0 : Version) ≤ 1 := by decide
  obtain ⟨-, bytes, more, hframes, hframes', hdecode⟩ :=
    encodeAt_later_appends hbuilt hversion Tour.settledBetween ⟨_, _, _, _, hlater⟩
  -- One buffer for each version shows what the bytes are.
  obtain ⟨hsize, hbytes⟩ := hframes.bytes_eq hearlier
  obtain ⟨hsize', hbytes'⟩ := hframes'.bytes_eq hlater
  rw [Nat.zero_add] at hsize hsize'
  rw [← hsize] at hbytes
  rw [← hsize'] at hbytes'
  have hread := hdecode #[2, 1, 65, 1, 66, 1, 3, 65, 110, 110] 0 (Nat.zero_le _) (by
    rw [hbytes']
    exact List.take_prefix _ _)
  rw [hnormal, ← hsize] at hread
  exact ⟨Tour.settledBetween, hlater, hearlier, hread⟩

end Serializer

end SchemaWire

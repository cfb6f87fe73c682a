import SchemaWire.Proofs.Program.Upgrade
import SchemaWire.Proofs.Serializer.Codec
/-!
# Writing at a later version

What has been read at one version can be written at a later one exactly if no record in it would
have to write a default that its layout lacks, and then it is read again there as it was
(`Serializer.encodeAt_later_iff_upgradable`). The bytes that it was read from do not matter, nor
does the level or the tag encoding.
-/

namespace SchemaWire

/-! ### An example

Tickets were without any field at first, so that a list of them was a mere count. Version 1 has
given them a note, and version 2 a seat, which has no default. -/

namespace Ticket

/-- The declaration of the record. -/
def decl : RecordDecl where
  name := "Ticket"
  fields := [{ name := "note", type := .text, added := 1 },
    { name := "seat", type := .wrapped .u8, added := 2 }]

/-- A schema with nothing else in it. -/
def schema : Schema := { records := [decl] }

/-- The layout of a list of tickets. -/
def layout : Layout :=
  .list (.record "Ticket" [⟨"note", 1, .text⟩,
    ⟨"seat", 2, .primitive (Primitive.ofKind .u8).ensureWrapped⟩])

/-- The serializer of lists of tickets under some settings. -/
def serializer (settings : Settings) : Serializer :=
  .ofLayout layout (⟨0, 0⟩, .ofLayout layout settings.level settings.tagEncoding) settings

theorem wireFields_decl : decl.wireFields = decl.fields := List.mergeSort_of_pairwise (by decide)

theorem declared_schema : schema.Declared := by
  have hcheck : decl.check = .ok () := by
    unfold RecordDecl.check
    rw [wireFields_decl]
    rfl
  exact Schema.Declared.empty.append_record hcheck rfl

/-- Lists of tickets can be serialized under all settings. -/
theorem builtFrom (settings : Settings) :
    (serializer settings).BuiltFrom schema (.list (.record "Ticket")) settings := by
  -- Resolved by running the resolver; that the sizes fit is a finite check at each level and
  -- encoding.
  suffices hlayout : schema.layout settings.tagEncoding (.list (.record "Ticket")) = .ok layout by
    refine Serializer.builtFrom_of_layout declared_schema hlayout ?_
    rw [← ProgramFamily.isSome_compile_iff (Schema.spelledFirst_of_layout hlayout)]
    cases settings.level <;> cases settings.tagEncoding <;> decide +kernel
  refine Schema.layout_eq_ok_iff.2 ⟨by decide, ["Ticket"], ?_⟩
  refine Resolving.run_bind_eq_ok_iff.2 ⟨_, ["Ticket"], ?_, rfl⟩
  refine (Schema.resolveRecord_eq_ok_iff (by decide)).2 ⟨decl, 0, _, rfl, rfl, rfl, ?_⟩
  rw [wireFields_decl]
  rfl

end Ticket

namespace Serializer

variable {s : Serializer} {version later : Version} {input : Array UInt8} {offset e : Nat}
  {x : Value}

/-- **Writing at a later version.** What has been read at a version is written at a later one, into
every buffer that has room, exactly if no record in it has a field that has been added since and
lacks a default; and what has been written there is read again as the same value. -/
theorem encodeAt_later_iff_upgradable (hs : s.Built) (hversion : version ≤ later)
    (h : s.decodeAt input offset version = .ok (x, e)) :
    (∃ size, ∀ (buffer : Array UInt8) (start : Nat),
      (∃ e' buffer', s.encodeAt buffer start x later = (.ok e', buffer')) ↔
        s.layout.Upgradable version later x ∧ start + size ≤ buffer.size) ∧
      ∀ (buffer : Array UInt8) (start e' : Nat) (buffer' : Array UInt8),
        s.encodeAt buffer start x later = (.ok e', buffer') →
          s.decodeAt buffer' start later = .ok (x, e') := by
  obtain ⟨schema, root, settings, hs⟩ := hs
  have hproper := hs.proper version
  have hnames : ∀ name, ((s.layout.fieldsOf name).map (·.name)).Nodup := hproper.names
  -- What has been read conforms at its own version, and has its normal form there.
  obtain ⟨-, bytes, -, -, hrewrites⟩ := hs.rewrites_of_decodeAt h
  have hconforms := (Program.valid_iff_admits hproper hproper.root).1 hrewrites.valid
  have hnormal := hs.isNormal_of_decodeAt h
  rw [snapshot_programAt] at hconforms
  have hiff : s.layout.Conforms later x ↔ s.layout.Upgradable version later x :=
    Layout.admits_later_iff hversion hnames hnormal hconforms
  constructor
  · rw [← hiff]
    exact hs.exists_size x later
  · intro buffer start e' buffer' hencode
    rw [hs.decodeAt_eq_normalForm hencode,
      hs.normalForm_eq_self (Layout.isNormal_later hversion hnames hnormal)]

/-- Two tickets that were a mere count are written with their empty notes in version 1, and have no
seats to be written in version 2. -/
theorem encodeAt_later_iff_upgradable_tickets :
    let s := Ticket.serializer { level := .level1 }
    let ticket := Value.record "Ticket" [("note", .text ""), ("seat", .wrapped none)]
    let x := Value.list [ticket, ticket]
    s.Built ∧ s.decodeAt #[0, 0, 0, 2] 0 0 = .ok (x, 4) ∧
      (∃ buffer', s.encodeAt (Array.replicate 12 7) 0 x 1 = (.ok 12, buffer') ∧
        s.decodeAt buffer' 0 1 = .ok (x, 12)) ∧
      ∀ (buffer : Array UInt8) (start e : Nat) (buffer' : Array UInt8),
        s.encodeAt buffer start x 2 ≠ (.ok e, buffer') := by
  intro s ticket x
  have hbuilt : s.Built := ⟨_, _, _, Ticket.builtFrom _⟩
  have hdecode : s.decodeAt #[0, 0, 0, 2] 0 0 = .ok (x, 4) := by decide +kernel
  have hencode : s.encodeAt (Array.replicate 12 7) 0 x 1 =
      (.ok 12, #[0, 0, 0, 2, 0, 0, 0, 0, 0, 0, 0, 0]) := by decide +kernel
  refine ⟨hbuilt, hdecode, ⟨_, hencode, ?_⟩, fun buffer start e buffer' hlater => ?_⟩
  · exact (encodeAt_later_iff_upgradable hbuilt (by decide) hdecode).2 _ _ _ _ hencode
  -- The seat, added at version 2, lacks a default.
  · have hversion : (0 : Version) ≤ 2 := by decide
    obtain ⟨size, hsize⟩ := (encodeAt_later_iff_upgradable hbuilt hversion hdecode).1
    have hupgradable := ((hsize buffer start).1 ⟨e, buffer', hlater⟩).1
    revert hupgradable
    decide +kernel

end Serializer

end SchemaWire

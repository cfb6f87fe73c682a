import SchemaWire.Proofs.Program.Tightness
import SchemaWire.Proofs.Serializer.Codec
import SchemaWire.Proofs.Serializer.WellFormed
/-!
# Where the bound on list counts is exact

The bound on the count of a list is meant to be the number of members that the rest of the input can
hold. In a serializer that has been built it is this number for members that attain their least
size, and these are the tight ones (`Serializer.minSize_attained_iff_tight`). For all others the
bound is too high, groups first of all: they are measured by their tags, without the members that
come with them.
-/

namespace SchemaWire

/-! ### An example

Notes are the only members of a group. They had no fields at first, so that a tag was all there was
to one, and version 1 has given them a size. -/

namespace Notes

/-- The declaration of the record. -/
def decl : RecordDecl where
  name := "Note"
  fields := [{ name := "size", type := .scalar .u32, added := 1 }]

/-- The declaration of the group. -/
def group : GroupDecl where
  name := "Notes"
  members := [{ type := "Note" }]

/-- A schema of the two. -/
def schema : Schema where
  records := [decl]
  groups := [group]

/-- The layout of a note. -/
def note : Layout := .record "Note" [⟨"size", 1, .primitive (Primitive.ofKind .u32)⟩]

/-- The layout of the group. -/
def member : Layout := .subtypes "Notes" [⟨0, "Note", note⟩]

/-- The serializer of lists of notes under some settings. -/
def serializer (settings : Settings) : Serializer :=
  .ofLayout (.list member) (⟨0, 0⟩, .ofLayout (.list member) settings.level settings.tagEncoding)
    settings

theorem wireFields_decl : decl.wireFields = decl.fields := List.mergeSort_of_pairwise (by decide)

theorem declared_schema : schema.Declared := by
  have hcheck : decl.check = .ok () := by
    unfold RecordDecl.check
    rw [wireFields_decl]
    rfl
  have hrecord : Schema.Declared { records := [decl] } :=
    Schema.Declared.empty.append_record hcheck rfl
  exact .group hrecord (show Schema.declareGroup _ group = .ok schema from rfl)

theorem layout_schema (tagEncoding : TagEncoding) :
    schema.layout tagEncoding (.list (.subtypes "Notes")) = .ok (.list member) := by
  have hnote (referrer : String) :
      schema.resolveRecord tagEncoding 1 "Note" referrer [] = .ok (note, ["Note"]) := by
    refine (Schema.resolveRecord_eq_ok_iff (by decide)).2 ⟨decl, 0, _, rfl, rfl, rfl, ?_⟩
    rw [wireFields_decl]
    rfl
  refine Schema.layout_eq_ok_iff.2 ⟨by decide, ["Note"], ?_⟩
  refine Resolving.run_bind_eq_ok_iff.2 ⟨member, ["Note"], ?_, rfl⟩
  -- The only member of the group has the tag zero, which every encoding can carry.
  have htag : ¬tagEncoding.maxTag < 0 := UInt32.not_lt.2 UInt32.zero_le
  refine Resolving.run_bind_eq_ok_iff.2 ⟨[(0, "Note")], [], rfl, ?_⟩
  refine Resolving.run_bind_eq_ok_iff.2 ⟨[⟨0, "Note", note⟩], ["Note"], ?_, rfl⟩
  rw [List.mapM_cons]
  refine Resolving.run_bind_eq_ok_iff.2 ⟨⟨0, "Note", note⟩, ["Note"], ?_, rfl⟩
  simp only [if_neg htag]
  exact Resolving.run_bind_eq_ok_iff.2 ⟨note, ["Note"], hnote _, rfl⟩

/-- Lists of notes can be serialized under all settings. -/
theorem builtFrom (settings : Settings) :
    (serializer settings).BuiltFrom schema (.list (.subtypes "Notes")) settings :=
  Serializer.builtFrom_of_layout declared_schema (layout_schema _)
    (Layout.sizesFit_of_plain (by decide +kernel) _ _)

/-- The program of lists of notes at a version, with the default settings. -/
def program (version : Version) : Program := (serializer {}).programAt .u8 version

theorem member_mem_nodes (settings : Settings) : member ∈ (serializer settings).layout.nodes :=
  Layout.mem_nodes_of_part (List.mem_singleton_self _) (Layout.mem_nodes_self member)

/-- At first a note had no bytes. -/
theorem tight_member : (program 0).Tight maxDepth member := by
  -- Without fields at version 0, the member takes no bytes.
  have hfields : ∀ f, f ∉ (program 0).present "Note" := by
    have hnone : (program 0).present "Note" = [] := by decide +kernel
    exact hnone ▸ fun f => List.not_mem_nil
  have hmember : ⟨0, "Note", note⟩ ∈ [(⟨0, "Note", note⟩ : Member Layout)] :=
    List.mem_singleton_self _
  refine .subtypes hmember nofun (.mk ?_ ?_) (.record rfl fun f hf => absurd hf (hfields f))
  · exact fun f hf => absurd hf (hfields f)
  · exact fun f hf => absurd hf (hfields f)

/-- Since version 1, a note takes four bytes behind its tag. -/
theorem five_le_encodedLength {room : Nat} {v : Value}
    (h : ((program 1).layoutScript ((program 1).recordScript room) member v).Valid) :
    5 ≤ (program 1).encodedLength room member v := by
  have htypes : ([(⟨0, "Note", note⟩ : Member Layout)].map (·.type)).Nodup :=
    List.nodup_singleton _
  -- The only member is the note, whose field of four bytes is there from version 1 on.
  obtain ⟨m, hm, htype, hvalid⟩ := (Program.valid_subtypes_iff htypes).1 h
  obtain rfl := List.mem_singleton.1 hm
  have hnote : (program 1).minSize note = 4 := by decide +kernel
  have hle : (program 1).minSize note ≤ (program 1).encodedLength room note v :=
    Program.minSize_le_length hvalid
  rw [member, Program.encodedLength_subtypes htypes hm htype]
  change 5 ≤ 1 + (program 1).encodedLength room note v
  omega

end Notes

namespace Serializer

variable {s : Serializer} {schema : Schema} {root : TypeExpr} {settings : Settings}

/-- **Where the least size is attained.** A node of a built layout has a value that takes no more
than its least size exactly if it is tight: if no group in it adds anything to its tag, or has a tag
of more than one byte where tags are varints. For a list of such nodes, and for no other, the bound
on counts is the number of members that the input can hold. -/
theorem minSize_attained_iff_tight (hs : s.BuiltFrom schema root settings) (version : Version)
    {a : Layout} (ha : a ∈ s.layout.nodes) (room : Nat) :
    let p := s.programAt settings.tagEncoding version
    ((∃ v, p.Attains room a v) ↔ p.Tight room a) ∧
      (0 < p.minSize a →
        ((∀ remaining n, n ≤ p.countLimit a remaining ↔ p.CanHold room a remaining n) ↔
          p.Tight room a)) := by
  intro p
  have htight : (∃ v, p.Attains room a v) ↔ p.Tight room a :=
    Program.exists_attains_iff (hs.proper version)
      (hs.resolves.proper_of_mem_nodes hs.declared ha)
  exact ⟨htight, fun hpos => (Program.countLimit_exact_iff hpos).trans htight⟩

/-- At first the bound on the number of notes was exact, as a note was no more than its tag. -/
theorem minSize_attained_iff_tight_notes :
    (Notes.serializer {}).BuiltFrom Notes.schema (.list (.subtypes "Notes")) {} ∧
      (∃ v, (Notes.program 0).Attains maxDepth Notes.member v) ∧
      ∀ remaining n, n ≤ (Notes.program 0).countLimit Notes.member remaining ↔
        (Notes.program 0).CanHold maxDepth Notes.member remaining n := by
  have hsize : (Notes.program 0).minSize Notes.member = 1 := by decide +kernel
  obtain ⟨hattained, hexact⟩ :=
    minSize_attained_iff_tight (Notes.builtFrom {}) 0 (Notes.member_mem_nodes {}) maxDepth
  refine ⟨Notes.builtFrom {}, hattained.2 Notes.tight_member, ?_⟩
  exact (hexact hsize.ge).2 Notes.tight_member

/-- Since version 1 the bound is five times too high: a note takes five bytes and is measured as
one, and in front of five bytes a count of six is refused for the sake of five members, of which two
have no room. -/
theorem minSize_not_attained_by_notes :
    ((Notes.serializer {}).BuiltFrom Notes.schema (.list (.subtypes "Notes")) {} ∧
      (Notes.program 1).minSize Notes.member = 1 ∧
      (∃ v, ((Notes.program 1).layoutScript ((Notes.program 1).recordScript maxDepth)
        Notes.member v).Valid) ∧
      (∀ room v, ((Notes.program 1).layoutScript ((Notes.program 1).recordScript room)
        Notes.member v).Valid → 5 ≤ (Notes.program 1).encodedLength room Notes.member v) ∧
      (Notes.serializer {}).decodeAt #[6, 0, 0, 0, 0, 0] 0 1 = .error (.listTooLong 6 5) ∧
      ¬(Notes.program 1).CanHold maxDepth Notes.member 5 2) ∧
    ¬∀ (s : Serializer) (schema : Schema) (root : TypeExpr) (settings : Settings)
      (version : Version) (a : Layout) (room : Nat), s.BuiltFrom schema root settings →
      a ∈ s.layout.nodes →
      (∃ v, ((s.programAt settings.tagEncoding version).layoutScript
        ((s.programAt settings.tagEncoding version).recordScript room) a v).Valid) →
      ∃ v, (s.programAt settings.tagEncoding version).Attains room a v := by
  have hsize : (Notes.program 1).minSize Notes.member = 1 := by decide +kernel
  -- The note itself is a value of the list's member.
  have hvalue : ∃ v, ((Notes.program 1).layoutScript ((Notes.program 1).recordScript maxDepth)
      Notes.member v).Valid := by
    have hscript : (Notes.program 1).layoutScript ((Notes.program 1).recordScript maxDepth)
        Notes.member (.record "Note" [("size", .scalar ⟨.u32, 0⟩)]) =
          [.fixed 1 0, .enter, .fixed 4 0, .leave] := by with_unfolding_all rfl
    refine ⟨.record "Note" [("size", .scalar ⟨.u32, 0⟩)], ?_⟩
    rw [hscript]
    simp [Step.Valid]
  refine ⟨⟨Notes.builtFrom {}, hsize, hvalue, fun _ _ => Notes.five_le_encodedLength, ?_, ?_⟩, ?_⟩
  · with_unfolding_all rfl
  · -- Two notes take ten bytes.
    rintro ⟨vs, hlength, hvalid, hsum⟩
    have hmembers := Program.mul_le_sum_encodedLength fun x hx =>
      Notes.five_le_encodedLength (hvalid x hx)
    rw [hlength] at hmembers
    exact absurd (hmembers.trans hsum) (by decide)
  · intro hattained
    obtain ⟨v, hv⟩ : ∃ v, (Notes.program 1).Attains maxDepth Notes.member v :=
      hattained _ _ _ _ 1 _ maxDepth (Notes.builtFrom {}) (Notes.member_mem_nodes {}) hvalue
    have hle := Notes.five_le_encodedLength hv.valid
    have heq := hv.length_eq.trans hsize
    omega

end Serializer

end SchemaWire

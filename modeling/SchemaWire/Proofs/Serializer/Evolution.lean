import SchemaWire.Proofs.Program.Extension
import SchemaWire.Proofs.Schema.Evolution
import SchemaWire.Proofs.Serializer.Header
/-!
# Serializers of a schema and of one that extends it

Two serializers, one built from a schema and one from a schema that extends it, exchange values with
version headers. Where the version in the header is one that the smaller schema has, their programs
put the same fields on the wire (`Schema.Extends.extends_program`), so:

* `Serializer.decode_withExtra` — from whatever bytes the smaller one decodes a value, the larger
  one decodes the same value with the extra fields added.
* `Serializer.decode_withoutExtra` — what the larger one encodes at such a version, the smaller one
  decodes without the extra fields.
* `Serializer.decode_of_extends` — in both directions, what one of the two encodes the other one
  decodes, with the extra fields added or taken away.
-/

namespace SchemaWire

open Layout

variable {schema schema' : Schema} {root : TypeExpr}

/-- **At an old version the program of the larger schema extends that of the smaller one.** -/
theorem Schema.Extends.extends_program {newest version : Version} {tagEncoding : TagEncoding}
    {a b : Layout} (h : schema.Extends schema' root newest)
    (ha : schema.Resolves tagEncoding root a) (hb : schema'.Resolves tagEncoding root b)
    (hversion : version ≤ newest) (format : WireFormat) :
    (Program.ofLayout a (a.versionAt version) format tagEncoding).Extends
      (Program.ofLayout b (b.versionAt version) format tagEncoding) (schema.Known root)
      (a.extraFields b) := by
  have hsnapshot (c : Layout) : (Program.ofLayout c (c.versionAt version) format
      tagEncoding).snapshot = c.snapshot version := c.snapshot_versionAt version
  have hpresent (c : Layout) (name : TypeName) :
      (Program.ofLayout c (c.versionAt version) format tagEncoding).present name =
        (c.fieldsOf name).filter fun f => f.added ≤ version :=
    congrFun (congrArg Snapshot.present (hsnapshot c)) name
  have homitted (c : Layout) (name : TypeName) :
      (Program.ofLayout c (c.versionAt version) format tagEncoding).omitted name =
        (c.fieldsOf name).filter fun f => version < f.added :=
    congrFun (congrArg Snapshot.omitted (hsnapshot c)) name
  refine ⟨rfl, rfl, fun name hname => ?_, fun name hname => ?_⟩
  · obtain ⟨kept, hfields, hkept, hextra⟩ := h.similar_fieldsOf ha hb hname
    -- The extra fields are newer than the version, so none of them is on the wire.
    have hnone : (a.extraFields b name).filter (fun f => decide (f.added ≤ version)) = [] := by
      refine List.filter_eq_nil_iff.2 fun f hf => ?_
      have := UInt32.lt_of_le_of_lt hversion (hextra f hf)
      simpa using this
    rw [hpresent, hpresent, hfields, List.filter_append, hnone, List.append_nil]
    refine List.rel_filter ?_ hkept
    intro f g hfg
    simp only [hfg.2.1]
  -- And all of them are among the omitted ones.
  · obtain ⟨kept, hfields, hkept, hextra⟩ := h.similar_fieldsOf ha hb hname
    have hall : (a.extraFields b name).filter (fun f => decide (version < f.added)) =
        a.extraFields b name := by
      refine List.filter_eq_self.2 fun f hf => ?_
      exact decide_eq_true (UInt32.lt_of_le_of_lt hversion (hextra f hf))
    rw [homitted, homitted, hfields, List.filter_append, hall]
    refine ⟨_, rfl, List.rel_filter ?_ hkept⟩
    intro f g hfg
    simp only [hfg.2.1]

/-! ### An example

Chains whose records have gained a note in version 2. -/

namespace Chain

/-- The new field. -/
def note : FieldDecl := { name := "note", type := .text, added := 2 }

/-- The declaration with the new field. -/
def notedDecl : RecordDecl := { decl with fields := decl.fields ++ [note] }

/-- The schema of noted chains. -/
def notedSchema : Schema := { records := [notedDecl] }

/-- The layout of a noted chain. -/
def notedLayout : Layout :=
  .record "Chain" [⟨"next", 0, .nullable (.reference "Chain")⟩,
    ⟨"flag", 0, .nullable (.primitive (Primitive.ofKind .bool).ensureWrapped)⟩,
    ⟨"size", 1, .primitive ((Primitive.ofKind .u16).withVarLength true)⟩, ⟨"note", 2, .text⟩]

/-- The serializer of noted chains under some settings. -/
def notedSerializer (settings : Settings) : Serializer :=
  .ofLayout notedLayout (⟨0, 0⟩, .ofLayout notedLayout settings.level settings.tagEncoding) settings

theorem wireFields_notedDecl : notedDecl.wireFields = decl.fields ++ [note] :=
  List.mergeSort_of_pairwise (by decide)

/-- Noted chains can be serialized under all settings. -/
theorem builtFrom_notedSerializer (settings : Settings) :
    (notedSerializer settings).BuiltFrom notedSchema (.record "Chain") settings := by
  have hcheck : notedDecl.check = .ok () := by
    unfold RecordDecl.check
    rw [wireFields_notedDecl]
    rfl
  have hdeclared : notedSchema.Declared := Schema.Declared.empty.append_record hcheck rfl
  refine Serializer.builtFrom_of_layout hdeclared ?_
    (Layout.sizesFit_of_plain (by decide +kernel) _ _)
  refine Schema.layout_eq_ok_iff.2 ⟨by decide, ["Chain"], ?_⟩
  refine (Schema.resolveRecord_eq_ok_iff (by decide)).2 ⟨notedDecl, 0, _, rfl, rfl, rfl, ?_⟩
  rw [wireFields_notedDecl]
  rfl

theorem extends_notedSchema : Chain.schema.Extends notedSchema (.record "Chain") 1 where
  record name d _ hd := by
    obtain ⟨hmem, rfl⟩ := Schema.record?_eq_some hd
    obtain rfl : d = decl := List.mem_singleton.1 hmem
    -- The declaration has one field more, added at version 1.
    refine ⟨notedDecl, rfl, decl.fields, [note], wireFields_notedDecl, ?_, ?_⟩
    · rw [wireFields_decl]
      exact List.forall₂_same.2 fun f _ => ⟨rfl, rfl, rfl, rfl⟩
    · intro f hf
      obtain rfl := List.mem_singleton.1 hf
      decide
  group name d _ hd := absurd (Schema.group?_eq_some hd).1 List.not_mem_nil

end Chain

namespace Serializer

variable {s s' : Serializer} {settings settings' : Settings} {input buffer buffer' : Array UInt8}
  {offset e : Nat} {x y : Value} {version : Version}

/-- The programs of the two serializers at an old version. -/
theorem extends_programAt (hs : s.BuiltFrom schema root settings)
    (hs' : s'.BuiltFrom schema' root settings') (hlevel : settings'.level = settings.level)
    (htag : settings'.tagEncoding = settings.tagEncoding)
    (hext : schema.Extends schema' root s.layout.newest) (hversion : version ≤ s.layout.newest) :
    (s.programAt settings.tagEncoding version).Extends
      (s'.programAt settings.tagEncoding version) (schema.Known root)
      (s.layout.extraFields s'.layout) := by
  have hformat : s'.format = s.format := by
    rw [format, format, hs.level_eq, hs'.level_eq, hlevel]
  unfold programAt
  rw [hformat]
  exact hext.extends_program hs.resolves (htag ▸ hs'.resolves) hversion s.format

/-- **Whatever the smaller schema decodes the larger one decodes**, from the same bytes and with the
extra fields at their defaults in every record. -/
theorem decode_withExtra (hs : s.BuiltFrom schema root settings)
    (hs' : s'.BuiltFrom schema' root settings') (hlevel : settings'.level = settings.level)
    (htag : settings'.tagEncoding = settings.tagEncoding) (hheader : settings.versionHeader = true)
    (hheader' : settings'.versionHeader = true)
    (hext : schema.Extends schema' root s.layout.newest)
    (hdecode : s.decode input offset = .ok (y, e)) :
    s'.decode input offset = .ok (y.withExtra (s.layout.extraFields s'.layout), e) := by
  have hformat : s'.format = s.format := by
    rw [format, format, hs.level_eq, hs'.level_eq, hlevel]
  have hresolves' : schema'.Resolves settings.tagEncoding root s'.layout := htag ▸ hs'.resolves
  have hnewest : s.programs.maxVersion ≤ s'.programs.maxVersion := by
    rw [hs.maxVersion_eq, hs'.maxVersion_eq]
    exact hext.newest_le hs.resolves hresolves'
  refine decodeWith_of_simulates hformat ?_ hdecode
  refine simulates_readVersion (hs.versionHeader_eq.trans hheader)
    (hs'.versionHeader_eq.trans hheader') hnewest fun version hversion => ?_
  rw [hs.maxVersion_eq] at hversion
  rw [hs.programFor_eq, hs'.programFor_eq, htag]
  have hproper := hs.proper version
  have hproper' := htag ▸ hs'.proper version
  have hprograms := extends_programAt hs hs' hlevel htag hext hversion
  have hroots := hext.similar .root hs.resolves.lays hresolves'.lays
  -- The two decoders agree whatever room is left for records.
  intro r v r' hr hv
  exact hprograms.simulates_decodeLayout hproper hproper' hroots hproper.root hproper'.root r v r'
    hr hv

/-- **Whatever the larger schema encodes at an old version the smaller one decodes**, as the normal
form of the value without the extra fields. -/
theorem decode_withoutExtra (hs : s.BuiltFrom schema root settings)
    (hs' : s'.BuiltFrom schema' root settings') (hlevel : settings'.level = settings.level)
    (htag : settings'.tagEncoding = settings.tagEncoding) (hheader : settings.versionHeader = true)
    (hheader' : settings'.versionHeader = true)
    (hext : schema.Extends schema' root s.layout.newest)
    (hversion : s'.encodeVersion ≤ s.layout.newest)
    (hencode : s'.encode buffer offset x = (.ok e, buffer')) :
    s.decode buffer' offset = .ok (s.normalForm s'.encodeVersion
      (x.withoutExtra (s.layout.extraFields s'.layout)), e) := by
  have hresolves' : schema'.Resolves settings.tagEncoding root s'.layout := htag ▸ hs'.resolves
  have hproper := hs.proper s'.encodeVersion
  have hproper' := hs'.proper s'.encodeVersion
  -- What was written is the header and a script that the later program has for the value.
  obtain ⟨hvalid, rfl, hroom, hbuffer'⟩ := (hs'.encode_eq_ok_iff hheader').1 hencode
  obtain ⟨hoffset, hfront⟩ := prefix_drop_of_written (by omega) hbuffer'
  rw [htag] at hvalid hfront hproper'
  have hprograms := extends_programAt hs hs' hlevel htag hext hversion
  have hroots := hext.similar .root hs.resolves.lays hresolves'.lays
  -- Without the additions the value has the same bytes in the earlier program.
  obtain ⟨hvalid', hbytes⟩ :=
    hprograms.shortens hproper hproper' hroots hproper.root hproper'.root hvalid
  have hsame : Varint.encode s'.encodeVersion.toUInt64 ++
      ((s'.programAt settings.tagEncoding s'.encodeVersion).script maxDepth x).bytes s'.format =
      Varint.encode s'.encodeVersion.toUInt64 ++
        ((s.programAt settings.tagEncoding s'.encodeVersion).script maxDepth
          (x.withoutExtra (s.layout.extraFields s'.layout))).bytes s.format :=
    congrArg _ hbytes.symm
  rw [htag]
  exact hs.decode_of_front hheader hversion hvalid' hsame hoffset hfront

/-! ### The statement -/

/-- **Evolution of schemas.** Let one serializer be built from a schema and another one from a
schema that extends it below the root, both with the same level, tag encoding and a version header,
and whatever versions they are set to. Then what the smaller one encodes both decode alike, but for
the extra fields that the larger one adds at their defaults. And what the larger one encodes, at a
version that the smaller one has, the smaller one decodes as the normal form of the value without
the extra fields. -/
theorem decode_of_extends (hs : s.BuiltFrom schema root settings)
    (hs' : s'.BuiltFrom schema' root settings') (hlevel : settings'.level = settings.level)
    (htag : settings'.tagEncoding = settings.tagEncoding) (hheader : settings.versionHeader = true)
    (hheader' : settings'.versionHeader = true)
    (hext : schema.Extends schema' root s.layout.newest) :
    (∀ (buffer : Array UInt8) (offset : Nat) (x : Value) (e : Nat) (buffer' : Array UInt8),
      s.encode buffer offset x = (.ok e, buffer') →
        ∃ y, y = s.normalForm s.encodeVersion x ∧ s.decode buffer' offset = .ok (y, e) ∧
          s'.decode buffer' offset =
            .ok (y.withExtra (s.layout.extraFields s'.layout), e)) ∧
      (s'.encodeVersion ≤ s.layout.newest →
        ∀ (buffer : Array UInt8) (offset : Nat) (x : Value) (e : Nat) (buffer' : Array UInt8),
          s'.encode buffer offset x = (.ok e, buffer') →
            s.decode buffer' offset = .ok (s.normalForm s'.encodeVersion
              (x.withoutExtra (s.layout.extraFields s'.layout)), e)) := by
  constructor
  -- Forwards, the additions get their defaults; backwards, they are left out.
  · intro buffer offset x e buffer' hencode
    have hdecode := hs.decode_of_encode hheader hencode
    exact ⟨_, rfl, hdecode,
      decode_withExtra hs hs' hlevel htag hheader hheader' hext hdecode⟩
  · intro hversion buffer offset x e buffer' hencode
    exact decode_withoutExtra hs hs' hlevel htag hheader hheader' hext hversion hencode

/-- Chains and noted chains, the latter written at version 1. The note comes back empty in one
direction and is dropped in the other. -/
theorem decode_of_extends_chain :
    let settings : Settings := { level := .level3, versionHeader := true }
    let settings' : Settings := { settings with encodeVersion := some 1 }
    let s := Chain.serializer settings
    let s' := Chain.notedSerializer settings'
    let x := Value.record "Chain" [("flag", .wrapped none), ("next", .null),
      ("size", .scalar ⟨.u16, 300⟩)]
    let noted (t : String) := Value.record "Chain" [("flag", .wrapped none), ("next", .null),
      ("note", .text t), ("size", .scalar ⟨.u16, 300⟩)]
    Chain.schema.Extends Chain.notedSchema (.record "Chain") s.layout.newest ∧
      s.encode #[9, 9, 9, 9, 9, 9] 0 x = (.ok 5, #[1, 0, 0, 172, 2, 9]) ∧
      s'.decode #[1, 0, 0, 172, 2, 9] 0 = .ok (noted "", 5) ∧
      s'.encode #[9, 9, 9, 9, 9, 9] 0 (noted "old") = (.ok 5, #[1, 0, 0, 172, 2, 9]) ∧
      s.decode #[1, 0, 0, 172, 2, 9] 0 = .ok (x, 5) := by
  intro settings settings' s s' x noted
  have hencode : s.encode #[9, 9, 9, 9, 9, 9] 0 x = (.ok 5, #[1, 0, 0, 172, 2, 9]) := by
    decide +kernel
  have hencode' : s'.encode #[9, 9, 9, 9, 9, 9] 0 (noted "old") =
      (.ok 5, #[1, 0, 0, 172, 2, 9]) := by decide +kernel
  have hnewest : s.layout.newest = 1 := by decide
  have hext : Chain.schema.Extends Chain.notedSchema (.record "Chain") s.layout.newest :=
    hnewest ▸ Chain.extends_notedSchema
  obtain ⟨hforward, hbackward⟩ := decode_of_extends (Chain.builtFrom settings)
    (Chain.builtFrom_notedSerializer settings') rfl rfl rfl rfl hext
  obtain ⟨y, hy, -, hdecode'⟩ := hforward _ _ _ _ _ hencode
  have hdecode := hbackward (by decide) _ _ _ _ _ hencode'
  -- Both are the values that are written out above.
  have hnormal : s.normalForm s.encodeVersion x = x := by decide +kernel
  have hextra : x.withExtra (s.layout.extraFields s'.layout) = noted "" := by decide +kernel
  have hstripped : s.normalForm s'.encodeVersion
      ((noted "old").withoutExtra (s.layout.extraFields s'.layout)) = x := by decide +kernel
  rw [hy, hnormal, hextra] at hdecode'
  rw [hstripped] at hdecode
  exact ⟨hext, hencode, hdecode', hencode', hdecode⟩

end Serializer

end SchemaWire

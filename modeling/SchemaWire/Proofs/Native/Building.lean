import Mathlib.Data.Fin.VecNotation
import SchemaWire.Native.Records
import SchemaWire.Proofs.Native.Acceptance
import SchemaWire.Proofs.Native.Hosting
import SchemaWire.Proofs.Serializer.Building
import SchemaWire.Proofs.Serializer.Framing
import SchemaWire.Proofs.Serializer.Growing
import SchemaWire.Proofs.Serializer.Header
/-!
# Serializers of native data

A serializer of native data can be built from any schema that hosts its types, whatever has been
declared there besides, as long as the sizes in the layout fit; and it carries the data.
`Builder.buildNative_roundTrip` says which data it accepts and what is read back. It is put together
from the conversions by themselves (`NativeTypes.ofValue_toValue`), from what registration leaves
behind (`NativeTypes.register_eq_ok`), and from what the layout accepts and gives back
(`NativeTypes.admits_toValue_iff`, `NativeTypes.ofValue_normalize`).

It is not enough that no record nests too deeply and nothing is too long: lists of records without
bytes have a bound of their own, and records whose name another type has taken are not carried at all
(`Builder.buildNative_refuses`).
-/

namespace SchemaWire

/-! ### Default versions -/

namespace Serializer.BuiltFrom

variable {s : Serializer} {schema : Schema} {root : TypeExpr} {settings : Settings}
  {buffer buffer' : Array UInt8} {offset e : Nat} {x : Value}

/-- A serializer whose version is not chosen encodes at the newest one. -/
theorem encodeVersion_eq_newest (h : s.BuiltFrom schema root settings)
    (hversion : settings.encodeVersion = none) : s.encodeVersion = s.layout.newest := by
  obtain ⟨-, handle, hs⟩ := h.eq_ofLayout
  rw [← h.maxVersion_eq, hs]
  unfold ofLayout
  rw [hversion]

/-- A serializer whose version is not chosen decodes at the newest one. -/
theorem decodeVersion_eq_newest (h : s.BuiltFrom schema root settings)
    (hversion : settings.decodeVersion = none) : s.decodeVersion = s.layout.newest := by
  obtain ⟨-, handle, hs⟩ := h.eq_ofLayout
  rw [← h.maxVersion_eq, hs]
  unfold ofLayout
  rw [hversion]

/-- **Round trip at one version**, with a header or without. -/
theorem decode_of_encode_same (h : s.BuiltFrom schema root settings)
    (hsame : s.decodeVersion = s.encodeVersion)
    (hencode : s.encode buffer offset x = (.ok e, buffer')) :
    s.decode buffer' offset = .ok (s.normalForm s.encodeVersion x, e) := by
  cases hheader : settings.versionHeader with
  | true => exact h.decode_of_encode hheader hencode
  | false =>
    have hs : s.versionHeader = false := h.versionHeader_eq.trans hheader
    -- Without a header a value is written and read as at a given version.
    have hencodeAt : s.encodeAt buffer offset x s.encodeVersion = (.ok e, buffer') := by
      unfold encode script at hencode
      rw [hs] at hencode
      exact hencode
    have hdecode : s.decode buffer' offset = s.decodeAt buffer' offset s.encodeVersion := by
      unfold decode readVersion decodeAt
      rw [hs, hsame]
      rfl
    rw [hdecode]
    exact h.decodeAt_eq_normalForm hencodeAt

end Serializer.BuiltFrom

/-! ### Native data -/

variable {Γ : NativeTypes} {t : NativeType Γ.count}

/-- Data is as a serializer can take it: records are not nested too deeply, no text and no list is
too long, and no list has too many members without bytes. -/
def NativeData.Bounded (x : NativeData Γ t) : Prop :=
  x.toValue.nesting ≤ maxDepth ∧ x.toValue.LengthsFit ∧ x.CountsFit

namespace Serializer.BuiltFrom

variable {s : Serializer} {schema : Schema} {settings : Settings}

/-- At the version at which native data is encoded all of its records are laid out. -/
theorem lays_encodeVersion (h : s.BuiltFrom schema (Γ.typeExpr t) settings)
    (hprovided : Γ.ProvidedBy schema t) (hversion : settings.encodeVersion = none)
    {i : Fin Γ.count} (hi : Γ.Needs t i) :
    Γ.Lays (s.layout.snapshot s.encodeVersion) schema settings.tagEncoding i := by
  rw [h.encodeVersion_eq_newest hversion]
  exact hprovided.lays h.resolves hi

/-- A value is valid for a serializer if it conforms at the version at which it is encoded. -/
theorem valid_script_iff_conforms {root : TypeExpr} (h : s.BuiltFrom schema root settings)
    (x : Value) : (s.script x).Valid ↔ s.layout.Conforms s.encodeVersion x :=
  valid_script_iff.trans h.valid_scriptAt_iff_conforms

/-- **Bounded data is accepted, and no other.** -/
theorem valid_script_toValue_iff (h : s.BuiltFrom schema (Γ.typeExpr t) settings)
    (hprovided : Γ.ProvidedBy schema t) (hversion : settings.encodeVersion = none)
    (x : NativeData Γ t) : (s.script x.toValue).Valid ↔ x.Bounded := by
  -- Validity is conformance to the layout, and the layout is that of the type.
  refine (h.valid_script_iff_conforms _).trans ?_
  exact Γ.admits_toValue_iff h.resolves.lays (fun i => h.lays_encodeVersion hprovided hversion) x

/-- What is decoded where data has been encoded is read as the data. -/
theorem ofValue_normalForm (h : s.BuiltFrom schema (Γ.typeExpr t) settings)
    (hprovided : Γ.ProvidedBy schema t) (hversion : settings.encodeVersion = none)
    (x : NativeData Γ t) :
    Γ.ofValue t (s.normalForm s.encodeVersion x.toValue) = .ok x.collapse := by
  have hlays := fun i (hi : Γ.Needs t i) => h.lays_encodeVersion hprovided hversion hi
  rw [← s.snapshot_programAt settings.tagEncoding] at hlays
  rw [normalForm, ← s.snapshot_programAt settings.tagEncoding]
  exact Γ.ofValue_normalize (h.proper _).nodup_declared h.resolves.lays hlays x

end Serializer.BuiltFrom

/-! ### Two examples

Lists of optional nodes, and lists of marks, which are records without fields. -/

namespace Shapes

theorem wireFields_decl (i : Fin 3) : (types.decl i).wireFields = (types.decl i).fields := by
  refine List.mergeSort_of_pairwise ?_
  revert i
  decide

theorem check_decl (i : Fin 3) : (types.decl i).check = .ok () := by
  unfold RecordDecl.check
  rw [wireFields_decl]
  revert i
  decide

theorem collapse_nodeData (label : String) (weight : NativeData types (.optional (.scalar .u16)))
    (next : NativeData types (.optional (.boxed (.record node)))) :
    (nodeData label weight next).collapse = nodeData label weight.collapse next.collapse := by
  refine congrArg NativeData.record (funext fun j : Fin 3 => ?_)
  match j with
  | 0 | 1 | 2 => rfl

theorem countsFit_nodeData {label : String} {weight : NativeData types (.optional (.scalar .u16))}
    {next : NativeData types (.optional (.boxed (.record node)))} :
    (nodeData label weight next).CountsFit ↔ weight.CountsFit ∧ next.CountsFit := by
  constructor
  · exact fun h => ⟨h (1 : Fin 3), h (2 : Fin 3)⟩
  -- The label is a text, which has no count of members.
  · rintro ⟨hweight, hnext⟩ (j : Fin 3)
    match j with
    | 0 => trivial
    | 1 => exact hweight
    | 2 => exact hnext

/-- A list of nodes, each of which may be missing, in two ways. -/
def nodes : NativeType types.count := .list (.optional (.boxed (.optional (.record node))))

/-- A schema of nodes. -/
def nodeSchema : Schema := { records := [types.decl node] }

theorem register_nodes : types.register nodes {} = (.ok (), nodeSchema) := by
  have hdeclare : ({} : Schema).declareRecord (types.decl node) = .ok nodeSchema :=
    Schema.declareRecord_of_none (check_decl node) rfl
  have hopen : ¬types.Passes {} node := Bool.false_ne_true
  refine (types.register_record node {}).trans ?_
  rw [if_neg hopen, hdeclare]
  -- The node in the last field is known by now.
  rfl

/-- The layout of a node. -/
def nodeLayout : Layout :=
  .record "Node" [⟨"label", 0, .text⟩,
    ⟨"weight", 0, .nullable (.primitive ((Primitive.ofKind .u16).withVarLength true).ensureWrapped)⟩,
    ⟨"next", 1, .nullable (.reference "Node")⟩]

theorem layout_nodes (tagEncoding : TagEncoding) :
    nodeSchema.layout tagEncoding (types.typeExpr nodes) = .ok (.list (.nullable nodeLayout)) := by
  -- The record is resolved first, with the fuel that one declaration asks for.
  have hnode : nodeSchema.resolveRecord tagEncoding 1 "Node" "root" [] =
      .ok (nodeLayout, ["Node"]) := by
    refine (Schema.resolveRecord_eq_ok_iff (by decide)).2 ⟨types.decl node, 0, _, rfl, rfl, rfl, ?_⟩
    rw [wireFields_decl]
    rfl
  refine Schema.layout_eq_ok_iff.2 ⟨by decide, ["Node"], ?_⟩
  exact bind_eq_ok_iff.2 ⟨_, bind_eq_ok_iff.2 ⟨_, bind_eq_ok_iff.2 ⟨_, hnode, rfl⟩, rfl⟩, rfl⟩

/-- A schema where the name of the nodes is taken. -/
def takenSchema : Schema := { records := [{ name := "Node", fields := [] }] }

theorem declared_takenSchema : takenSchema.Declared := .append_record .empty (by decide +kernel) rfl

end Shapes

namespace Marks

/-- The number of the marks. -/
def mark : Fin 1 := 0

/-- Marks. -/
def types : NativeTypes where
  count := 1
  record _ := { name := "Mark", fields := [] }
  eq_of_name_eq := by decide
  guarded := by decide

/-- The data of a mark. -/
def markData : NativeData types (.record mark) := .record nofun

/-- A list of marks. -/
def marks (n : Nat) : NativeData types (.list (.record mark)) := .list fun _ : Fin n => markData

/-- A schema of marks. -/
def schema : Schema := { records := [types.decl mark] }

theorem declared_schema : schema.Declared := .append_record .empty (by decide +kernel) rfl

theorem providedBy_schema : types.ProvidedBy schema (.list (.record mark)) := by
  intro i hi
  -- There is but one record type.
  obtain rfl : i = mark := Subsingleton.elim (α := Fin 1) i mark
  rfl

theorem weightless_mark : types.Weightless (.record mark) := .record nofun

/-- Lists of marks are bounded by their length alone. -/
theorem nesting_marks_le (n : Nat) : (marks n).toValue.nesting ≤ maxDepth := by
  have hmark : markData.toValue.nesting ≤ maxDepth := by decide
  exact Value.nestingAlong_list_le_iff.2 (List.forall_mem_ofFn_iff.2 fun _ => hmark)

theorem lengthsFit_marks {n : Nat} (hn : n < 2 ^ 32) : (marks n).toValue.LengthsFit := by
  have hmark : markData.toValue.LengthsFit := by decide
  refine Value.lengthsFit_list_iff.2 ⟨?_, List.forall_mem_ofFn_iff.2 fun _ => hmark⟩
  rwa [List.length_ofFn]

end Marks

namespace Builder

variable {b : Builder} {cache cache' : ProgramCache} {schema : Schema}

/-- After registration, a serializer of native data is built as that of its type. -/
theorem buildNative_of_register (h : Γ.register t b.schema = (.ok (), schema))
    (cache : ProgramCache) :
    b.buildNative t cache =
      ((({ b with schema } : Builder).build (Γ.typeExpr t) cache).1.map .mk,
        (({ b with schema } : Builder).build (Γ.typeExpr t) cache).2) := by
  unfold buildNative register
  rw [h]

/-- A serializer of native data that has been built is one of the schema after registration. -/
theorem builtFrom_of_buildNative (h : Γ.register t b.schema = (.ok (), schema))
    (hs : schema.Declared) (hcache : cache.Reachable) {s : NativeSerializer Γ t}
    (hbuild : b.buildNative t cache = (.ok s, cache')) :
    s.untyped.BuiltFrom schema (Γ.typeExpr t) b.settings := by
  rw [buildNative_of_register h] at hbuild
  obtain ⟨hresult, hafter⟩ := Prod.mk.inj hbuild
  obtain ⟨x, hx, rfl⟩ := BuildResult.map_eq_ok_iff.1 hresult
  exact ⟨hs, cache, cache', hcache, Prod.ext hx hafter⟩

/-- A native type whose layout has sizes that fit gets its serializer. -/
theorem exists_buildNative (hregister : Γ.register t b.schema = (.ok (), schema)) {a : Layout}
    (hlayout : schema.layout b.settings.tagEncoding (Γ.typeExpr t) = .ok a)
    (hfits : a.SizesFit b.settings.level b.settings.tagEncoding) (cache : ProgramCache) :
    ∃ s, (b.buildNative t cache).1 = .ok s := by
  obtain ⟨x, hx⟩ : ∃ x, (({ b with schema } : Builder).build (Γ.typeExpr t) cache).1 = .ok x :=
    exists_build_eq_ok_iff.2 ⟨a, hlayout, hfits⟩
  rw [buildNative_of_register hregister]
  exact ⟨⟨x⟩, BuildResult.map_eq_ok_iff.2 ⟨x, hx, rfl⟩⟩

/-- **Native data goes through.** Its value is read back as the data, except that an option that
holds an empty one is empty itself. A serializer is built for its type unless the sizes in the layout
do not fit, and whatever the level, the header and the tags, the serializer accepts the data exactly
if it is bounded. What has been written is then decoded as what the value is read as, up to where the
writing ended. -/
theorem buildNative_roundTrip (hb : b.schema.Declared) (haccepted : ∀ i, (Γ.decl i).check = .ok ())
    (hhosts : Γ.HostedBy b.schema) (hencode : b.settings.encodeVersion = none)
    (hdecode : b.settings.decodeVersion = none) (hcache : cache.Reachable)
    (t : NativeType Γ.count) :
    (∀ x : NativeData Γ t, Γ.ofValue t x.toValue = .ok x.collapse) ∧
      (∃ schema a, Γ.register t b.schema = (.ok (), schema) ∧
        schema.layout b.settings.tagEncoding (Γ.typeExpr t) = .ok a ∧
        (a.SizesFit b.settings.level b.settings.tagEncoding →
          ∃ s, (b.buildNative t cache).1 = .ok s) ∧
        (¬a.SizesFit b.settings.level b.settings.tagEncoding →
          (b.buildNative t cache).1 = .panic)) ∧
      ∀ s cache', b.buildNative t cache = (.ok s, cache') → ∀ x : NativeData Γ t,
        (x.Bounded → ∃ bytes, s.encodeGrowing x = .ok bytes ∧
          Frames (s.encode · · x) bytes.toList) ∧
        (∀ bytes, s.encodeGrowing x = .ok bytes →
          x.Bounded ∧ s.decode bytes 0 = .ok (x.collapse, bytes.size)) ∧
        ∀ (buffer : Array UInt8) (offset e : Nat) (buffer' : Array UInt8),
          s.encode buffer offset x = (.ok e, buffer') →
            x.Bounded ∧ s.decode buffer' offset = .ok (x.collapse, e) := by
  obtain ⟨schema, hregister, hs, -, hprovided⟩ := Γ.register_eq_ok haccepted hb hhosts t
  refine ⟨NativeTypes.ofValue_toValue, ?_, fun s cache' hbuild x => ?_⟩
  · -- Nothing is missing, so there is a layout, and its sizes decide.
    obtain ⟨a, hlayout⟩ := (Schema.exists_layout_iff_complete hs).2
      (hprovided.complete b.settings.tagEncoding)
    refine ⟨schema, a, hregister, hlayout, ?_⟩
    refine ⟨fun hfits => exists_buildNative hregister hlayout hfits cache, fun hover => ?_⟩
    rw [buildNative_of_register hregister]
    exact BuildResult.map_eq_panic_iff.2 (build_eq_panic_iff.2 ⟨a, hlayout, hover⟩)
  · have hbuilt := builtFrom_of_buildNative hregister hs hcache hbuild
    have hbounded := hbuilt.valid_script_toValue_iff hprovided hencode x
    have hread : ∀ buffer offset e buffer', s.encode buffer offset x = (.ok e, buffer') →
        x.Bounded ∧ s.decode buffer' offset = .ok (x.collapse, e) := by
      intro buffer offset e buffer' hx
      have hvalid : (s.untyped.script x.toValue).Valid := (Script.writeInto_eq_ok_iff.1 hx).1
      -- Both versions are the newest one.
      have hsame : s.untyped.decodeVersion = s.untyped.encodeVersion :=
        (hbuilt.decodeVersion_eq_newest hdecode).trans (hbuilt.encodeVersion_eq_newest hencode).symm
      refine ⟨hbounded.1 hvalid, ?_⟩
      unfold NativeSerializer.decode
      rw [hbuilt.decode_of_encode_same hsame hx]
      refine bind_eq_ok_iff.2 ⟨_, rfl, bind_eq_ok_iff.2 ⟨x.collapse, ?_, rfl⟩⟩
      exact hbuilt.ofValue_normalForm hprovided hencode x
    refine ⟨fun hx => ⟨_, ?_, Script.frames (hbounded.2 hx) s.untyped.format⟩,
      fun bytes hx => ?_, hread⟩
    · exact Serializer.encodeGrowing_eq_ok_iff.2 ⟨hbounded.2 hx, rfl⟩
    · -- The bytes are those of a buffer that has just enough room.
      exact hread _ 0 _ _ (Serializer.encode_of_encodeGrowing hx)

/-- Nodes in options in options: the inner empty option is not read back. -/
theorem buildNative_roundTrip_nodes :
    let n := Shapes.nodeData "a" (.some (.scalar (300 : UInt16)))
      (.some (.boxed (Shapes.nodeData "b" .none .none)))
    let x : NativeData Shapes.types Shapes.nodes :=
      .list ![.some (.boxed .none), .none, .some (.boxed (.some n))]
    let y : NativeData Shapes.types Shapes.nodes :=
      .list ![.none, .none, .some (.boxed (.some n))]
    ({} : Builder).schema.Declared ∧ (∀ i, (Shapes.types.decl i).check = .ok ()) ∧
      Shapes.types.HostedBy ({} : Builder).schema ∧ (ProgramCache.mk 0 [] 0).Reachable ∧
      ∃ s cache' bytes, ({} : Builder).buildNative Shapes.nodes ⟨0, [], 0⟩ = (.ok s, cache') ∧
        s.encodeGrowing x = .ok bytes ∧ s.decode bytes 0 = .ok (y, bytes.size) := by
  intro n x y
  have hhosts := NativeTypes.HostedBy.empty Shapes.types
  have hcache := ProgramCache.Reachable.new 0
  obtain ⟨-, -, hbuilt⟩ := buildNative_roundTrip (b := {}) .empty Shapes.check_decl hhosts rfl rfl
    hcache Shapes.nodes
  -- The builder takes the types, and the sizes of their lists fit.
  obtain ⟨s, hs⟩ := exists_buildNative (b := {}) Shapes.register_nodes (Shapes.layout_nodes _)
    (Layout.sizesFit_of_plain (by decide +kernel) _ _) ⟨0, [], 0⟩
  obtain ⟨haccepts, hreads, -⟩ := hbuilt s _ (Prod.ext hs rfl) x
  have hbounded : x.Bounded := by
    refine ⟨by decide +kernel, by decide +kernel, fun _ => by decide, fun j => ?_⟩
    match j with
    | 0 | 1 => trivial
    | 2 => exact Shapes.countsFit_nodeData.2 ⟨trivial, Shapes.countsFit_nodeData.2 ⟨trivial, trivial⟩⟩
  -- What is null already collapses no further.
  have hn : n.collapse = n := by
    have hb := Shapes.collapse_nodeData "b" .none .none
    refine (Shapes.collapse_nodeData _ _ _).trans ?_
    exact congrArg (fun b => Shapes.nodeData "a" _ (.some (.boxed b))) hb
  -- Only the option around an absent box becomes absent.
  have hy : x.collapse = y := by
    refine congrArg NativeData.list (funext fun j : Fin 3 => ?_)
    match j with
    | 0 | 1 => rfl
    | 2 => exact congrArg (fun n => NativeData.some (.boxed (.some n))) hn
  obtain ⟨bytes, hbytes, -⟩ := haccepts hbounded
  exact ⟨.empty, Shapes.check_decl, hhosts, hcache, s, _, bytes, Prod.ext hs rfl, hbytes,
    hy ▸ (hreads bytes hbytes).2⟩

/-- A serializer is built, and refuses data whose value it finds invalid. -/
theorem exists_buildNative_refusing (hregister : Γ.register t b.schema = (.ok (), schema))
    (hs : schema.Declared) {a : Layout}
    (hlayout : schema.layout b.settings.tagEncoding (Γ.typeExpr t) = .ok a)
    (hmade : (ProgramFamily.compile a b.settings.level b.settings.tagEncoding).isSome = true)
    (hcache : cache.Reachable) {x : NativeData Γ t}
    (hinvalid : ∀ s : Serializer, s.BuiltFrom schema (Γ.typeExpr t) b.settings →
      ¬(s.script x.toValue).Valid) :
    ∃ s cache', b.buildNative t cache = (.ok s, cache') ∧
      ∀ buffer offset e buffer', s.encode buffer offset x ≠ (.ok e, buffer') := by
  have hfits := (ProgramFamily.isSome_compile_iff (Schema.spelledFirst_of_layout hlayout)).1 hmade
  obtain ⟨s, hbuild⟩ := exists_buildNative hregister hlayout hfits cache
  refine ⟨s, _, Prod.ext hbuild rfl, fun buffer offset e buffer' hx => ?_⟩
  have hbuilt := builtFrom_of_buildNative hregister hs hcache (Prod.ext hbuild rfl)
  exact hinvalid _ hbuilt (Script.writeInto_eq_ok_iff.1 hx).1

/-- A list of 65537 marks is refused, although it is not too long and nothing in it nests. So is a
node where another record has been declared under its name. -/
theorem buildNative_refuses :
    ((Marks.marks 65537).toValue.nesting ≤ maxDepth ∧ (Marks.marks 65537).toValue.LengthsFit ∧
      ∃ (s : NativeSerializer Marks.types (.list (.record Marks.mark))) (cache' : ProgramCache),
        ({} : Builder).buildNative _ { number := 0 } = (.ok s, cache') ∧
        ∀ buffer offset e buffer', s.encode buffer offset (Marks.marks 65537) ≠ (.ok e, buffer')) ∧
    ((Shapes.nodeData "a" .none .none).toValue.nesting ≤ maxDepth ∧
      (Shapes.nodeData "a" .none .none).toValue.LengthsFit ∧ Shapes.takenSchema.Declared ∧
      ∃ (s : NativeSerializer Shapes.types (.record Shapes.node)) (cache' : ProgramCache),
        ({ schema := Shapes.takenSchema } : Builder).buildNative _ { number := 0 } =
          (.ok s, cache') ∧
        ∀ buffer offset e buffer',
          s.encode buffer offset (Shapes.nodeData "a" .none .none) ≠ (.ok e, buffer')) := by
  have hcache := ProgramCache.Reachable.new 0
  refine ⟨⟨Marks.nesting_marks_le _, Marks.lengthsFit_marks (by decide), ?_⟩,
    by decide, by decide, Shapes.declared_takenSchema, ?_⟩
  · have hregister : Marks.types.register (.list (.record Marks.mark)) {} =
        (.ok (), Marks.schema) := by decide +kernel
    refine exists_buildNative_refusing (b := {}) (a := .list (.record "Mark" [])) hregister
      Marks.declared_schema (by decide +kernel) (by decide +kernel) hcache fun s hs hvalid => ?_
    -- The bound on the count is all that the list does not meet.
    have hbounded := (hs.valid_script_toValue_iff Marks.providedBy_schema rfl _).1 hvalid
    have hcount := hbounded.2.2.1 Marks.weightless_mark
    exact absurd hcount (by decide)
  · have hregister : Shapes.types.register (.record Shapes.node) Shapes.takenSchema =
        (.ok (), Shapes.takenSchema) := by decide +kernel
    have hlayout : Shapes.takenSchema.layout TagEncoding.standard (.record "Node") =
        .ok (.record "Node" []) := by decide +kernel
    refine exists_buildNative_refusing (b := { schema := Shapes.takenSchema }) hregister
      Shapes.declared_takenSchema hlayout (by decide +kernel) hcache fun s hs hvalid => ?_
    have hsame := Except.ok.inj (hs.eq_ofLayout.1.symm.trans hlayout)
    -- The label of the node is no field of the record.
    have hconforms := (hs.valid_script_iff_conforms _).1 hvalid
    rw [hsame] at hconforms
    obtain ⟨fields, hfields, hdeclared, -⟩ := hconforms
    cases hfields
    obtain ⟨f, hf | hf, -⟩ := hdeclared ("label", .text "a") (by decide)
    all_goals cases hf

end Builder

end SchemaWire

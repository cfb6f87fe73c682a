import SchemaWire.Proofs.Layout.Renaming
import SchemaWire.Proofs.Program.Compilation
import SchemaWire.Proofs.Program.Measuring
import SchemaWire.Proofs.Program.Scripts
import SchemaWire.Proofs.Wire.Anonymous
/-!
# Programs under new names

A program finds records in its table by name, measures them by name, and takes the fields of a value
by name. Under a `Renaming` it finds the same fields under their new names
(`Program.fieldsOf_rename`) and measures the same sizes (`Program.measuresAs_rename`), and no name
is ever written or read. So the steps that write a value are those that write the renamed value, but
for the names in their errors (`Program.script_rename`), and what is read is the renaming of what
was read (`Program.decode_rename`). Both are inductions on how many records can be nested.
-/

namespace SchemaWire

namespace Program

open Decoder
open Layout (renameField renameMember)

variable {ρ : Renaming} {p : Program} {v : Value}

/-- A program under new names. -/
def rename (ρ : Renaming) (p : Program) : Program :=
  { p with
    records := p.records.map fun r => (ρ.record r.1, r.2.map (renameField ρ r.1))
    root := p.root.rename ρ }

theorem rename_ofLayout (a : Layout) (version : Version) (format : WireFormat)
    (tagEncoding : TagEncoding) :
    (ofLayout a version format tagEncoding).rename ρ =
      ofLayout (a.rename ρ) version format tagEncoding := by
  unfold ofLayout
  rw [Layout.records_rename]
  rfl

/-! ### Looking up -/

/-- **The fields of a record**, under its new name. -/
theorem fieldsOf_rename (p : Program) (name : TypeName) :
    (p.rename ρ).fieldsOf (ρ.record name) = (p.fieldsOf name).map (renameField ρ name) := by
  have hlookup := lookup_map_of_injective ρ.record_injective
    (fun type fields => fields.map (renameField ρ type)) p.records name
  unfold fieldsOf
  change ((List.map _ p.records).lookup (ρ.record name)).getD [] = _
  rw [hlookup]
  cases p.records.lookup name <;> rfl

theorem present_rename (p : Program) (name : TypeName) :
    (p.rename ρ).present (ρ.record name) = (p.present name).map (renameField ρ name) := by
  rw [present, present, fieldsOf_rename, List.filter_map]
  rfl

theorem omitted_rename (p : Program) (name : TypeName) :
    (p.rename ρ).omitted (ρ.record name) = (p.omitted name).map (renameField ρ name) := by
  rw [omitted, omitted, fieldsOf_rename, List.filter_map]
  rfl

theorem packed?_rename (p : Program) (a : Layout) :
    (p.rename ρ).packed? (a.rename ρ) = p.packed? a := by
  cases a <;> rfl

/-- **Layouts are measured alike** under new names. -/
theorem measuresAs_rename (ρ : Renaming) (p : Program) :
    (p.rename ρ).MeasuresAs p ρ.record (Layout.rename ρ) where
  key_injective := ρ.record_injective
  recordName? a := by cases a <;> rfl
  plainSize a _ := by cases a <;> rfl
  present name := by
    rw [present_rename, List.map_map]
    rfl
  count := List.length_map _

/-! ### Making ready -/

theorem isSome_lookup_rename (p : Program) (name : TypeName) :
    ((p.rename ρ).records.lookup (ρ.record name)).isSome = (p.records.lookup name).isSome := by
  have hlookup := lookup_map_of_injective ρ.record_injective
    (fun type fields => fields.map (renameField ρ type)) p.records name
  change ((List.map _ p.records).lookup (ρ.record name)).isSome = _
  rw [hlookup, Option.isSome_map]

/-- **A layout can be made ready** under new names if it can under the old ones. -/
theorem compilesLayout_rename (p : Program) (a : Layout) :
    (p.rename ρ).compilesLayout (a.rename ρ) = p.compilesLayout a := by
  -- Sizes do not depend on names, and a name is found in the renamed memo as it was before.
  induction a with
  | primitive _ | text => rfl
  | nullable inner ih => exact ih
  | list member ih =>
    rw [Layout.rename, compilesLayout, compilesLayout, ih, Bool.eq_iff_iff, Bool.and_eq_true,
      Bool.and_eq_true, fits_wordSize, fits_wordSize, (p.measuresAs_rename ρ).minSize_eq]
  | record name _ | reference name => exact p.isSome_lookup_rename name
  | subtypes group members ih =>
    rw [Layout.rename_subtypes, compilesLayout, compilesLayout, Bool.eq_iff_iff,
      compilesMembers_eq_true_iff, compilesMembers_eq_true_iff, List.forall_mem_map]
    refine forall₂_congr fun m hm => ?_
    rw [← ih m hm]
    rfl

theorem compiles_rename (p : Program) : (p.rename ρ).compiles = p.compiles := by
  -- The fields that have to compile are those of the same record.
  have hfields (r : TypeName × List (Field Layout)) :
      ((p.rename ρ).present (ρ.record r.1)).all (fun f => (p.rename ρ).compilesLayout f.layout) =
        (p.present r.1).all fun f => p.compilesLayout f.layout := by
    rw [present_rename, List.all_map]
    exact congrArg (List.all (p.present r.1)) (funext fun f => p.compilesLayout_rename f.layout)
  unfold compiles
  change (_ && (p.records.map fun r => (ρ.record r.1, r.2.map (renameField ρ r.1))).all _) = _
  rw [List.all_map]
  refine congrArg₂ and (p.compilesLayout_rename p.root) ?_
  exact congrArg (List.all p.records) (funext hfields)

/-! ### Writing -/

theorem anonymous_textScript_rename (v : Value) :
    (textScript (v.rename ρ)).anonymous = (textScript v).anonymous := by
  cases v <;> rfl

theorem anonymous_packedScript_rename (wrapped : Bool) (v : Value) :
    (packedScript wrapped (v.rename ρ)).anonymous = (packedScript wrapped v).anonymous := by
  cases wrapped <;> cases v <;> rfl

theorem anonymous_primitiveScript_rename (q : Primitive) (format : WireFormat) (v : Value) :
    (q.script format (v.rename ρ)).anonymous = (q.script format v).anonymous := by
  unfold Primitive.script Primitive.unbox
  cases q.wrapped <;> cases v <;> rfl

/-- A field is declared exactly if it is declared under its new name. -/
theorem forall_declared_rename_iff (ρ : Renaming) {type : TypeName} {fields : FieldMap Value} :
    (∀ x ∈ Value.renameFields ρ type fields,
      ∃ f ∈ (p.rename ρ).fieldsOf (ρ.record type), f.name = x.1) ↔
      ∀ x ∈ fields, ∃ f ∈ p.fieldsOf type, f.name = x.1 := by
  -- Declared or not is a property of the name alone, so renaming the fields carries it over.
  let Declared (name : String) : Prop := ∃ f ∈ (p.rename ρ).fieldsOf (ρ.record type), f.name = name
  have hdeclared (name : String) :
      Declared (ρ.field type name) ↔ ∃ f ∈ p.fieldsOf type, f.name = name := by
    simp only [Declared, fieldsOf_rename, List.mem_map, exists_exists_and_eq_and, renameField,
      (ρ.field_injective type).eq_iff]
  refine (Value.forall_renameFields_iff (P := Declared)).trans ?_
  simp only [hdeclared]

section Scripts

variable {call call' : TypeName → Value → Script}

/-- The member that answers to a type is the one that answers to its new name. -/
theorem memberScript?_rename {members : List (Member Layout)}
    (h : ∀ m ∈ members, ∀ v, ((p.rename ρ).layoutScript call' (m.layout.rename ρ)
      (v.rename ρ)).anonymous = (p.layoutScript call m.layout v).anonymous)
    (type : TypeName) (v : Value) :
    Option.Rel (fun script script' => script'.anonymous = script.anonymous)
      (p.memberScript? call members type v)
      ((p.rename ρ).memberScript? call' (members.map (renameMember ρ)) (ρ.record type)
        (v.rename ρ)) := by
  refine optionRel_memberScript?
    (List.forall₂_map_right_iff.2 <| List.forall₂_same.2 fun m hm => ?_)
  refine ⟨ρ.record_injective.eq_iff, ?_⟩
  -- The tag has no name in it.
  rw [Script.anonymous_cons, Script.anonymous_cons]
  exact congrArg _ (h m hm v)

variable (hcall : ∀ name v,
  (call' (ρ.record name) (v.rename ρ)).anonymous = (call name v).anonymous)
include hcall

/-- **Between two records** the same steps are taken but for names, if that is so for records. -/
theorem layoutScript_rename (a : Layout) (v : Value) :
    ((p.rename ρ).layoutScript call' (a.rename ρ) (v.rename ρ)).anonymous =
      (p.layoutScript call a v).anonymous := by
  -- The steps are the same; only errors carry names, and those are left out on both sides.
  induction a generalizing v with
  | primitive q => exact anonymous_primitiveScript_rename q p.format v
  | text => exact anonymous_textScript_rename v
  | nullable inner ih =>
    rw [Layout.rename, layoutScript, layoutScript, packed?_rename]
    cases p.packed? inner with
    | some wrapped => exact anonymous_packedScript_rename wrapped v
    | none =>
      simp only [Value.isNull_rename]
      split
      · rfl
      · rw [Script.anonymous_cons, Script.anonymous_cons, ih v]
  | list member ih =>
    cases v with
    | list vs =>
      rw [Value.rename_list, Layout.rename, layoutScript, layoutScript,
        (p.measuresAs_rename ρ).minSize_eq, List.length_map, List.flatMap_map]
      split
      · rfl
      · rw [Script.anonymous_cons, Script.anonymous_cons, Script.anonymous_flatMap,
          Script.anonymous_flatMap]
        simp only [ih]
    | _ => rfl
  | record name fields | reference name => exact hcall name v
  | subtypes group members ih =>
    rw [Layout.rename_subtypes, layoutScript, layoutScript, Value.runtimeType?_rename]
    cases v.runtimeType? with
    | none => rfl
    | some type =>
      -- Types are matched by name, and an injective renaming keeps them apart.
      have hmember := memberScript?_rename ih type v
      simp only [Option.map_some]
      generalize p.memberScript? call members type v = script at hmember ⊢
      generalize (p.rename ρ).memberScript? call' _ _ _ = script' at hmember ⊢
      cases hmember with
      | some hmember => exact hmember
      | none => rfl

theorem bodyScript_rename (name : TypeName) (v : Value) :
    ((p.rename ρ).bodyScript call' (ρ.record name) (v.rename ρ)).anonymous =
      (p.bodyScript call name v).anonymous := by
  cases v with
  | record type fields =>
    by_cases htype : type = name
    · subst htype
      -- A record that declares its fields goes on to write them; others fail with some error on
      -- both sides.
      by_cases hdeclared : ∀ x ∈ fields, ∃ f ∈ p.fieldsOf type, f.name = x.1
      · rw [Value.rename, bodyScript_record hdeclared,
          bodyScript_record ((forall_declared_rename_iff ρ).2 hdeclared), present_rename,
          List.flatMap_map, Script.anonymous_flatMap, Script.anonymous_flatMap]
        refine List.flatMap_congr fun f _ => ?_
        simp only [renameField, Value.find?_renameFields]
        cases FieldMap.find? fields f.name with
        | some x => exact layoutScript_rename hcall f.layout x
        | none => rfl
      · have hundeclared := mt (forall_declared_rename_iff ρ).1 hdeclared
        obtain ⟨k, hold⟩ := bodyScript_of_undeclared call hdeclared
        obtain ⟨k', hnew⟩ := bodyScript_of_undeclared call' hundeclared
        rw [Value.rename, hold, hnew]
        rfl
    -- Another record stays another one, since the renaming is injective.
    · have hnew : ρ.record type ≠ ρ.record name := fun h => htype (ρ.record_injective h)
      rw [Value.rename, bodyScript, bodyScript, if_neg htype, if_neg hnew]
      rfl
  | _ => rfl

end Scripts

/-- **Records are written alike**, by induction on how many may be nested in them. -/
theorem recordScript_rename (p : Program) (room : Nat) (name : TypeName) (v : Value) :
    ((p.rename ρ).recordScript room (ρ.record name) (v.rename ρ)).anonymous =
      (p.recordScript room name v).anonymous := by
  induction room generalizing name v with
  | zero => rfl
  | succ room ih =>
    simp only [recordScript, Script.anonymous_cons, Script.anonymous_append, bodyScript_rename ih]

/-- **A renamed value is written by the same steps**, but for the names in their errors. -/
theorem script_rename (p : Program) (room : Nat) (v : Value) :
    ((p.rename ρ).script room (v.rename ρ)).anonymous = (p.script room v).anonymous :=
  layoutScript_rename (p.recordScript_rename room) p.root v

/-! ### Reading -/

theorem inStep_decodeText : decodeText.InStep (Value.rename ρ) decodeText := by
  unfold decodeText
  refine InStep.bind_same _ fun length => InStep.bind_same _ fun bytes => ?_
  split
  · exact InStep.pure rfl
  · exact InStep.throw rfl

theorem inStep_decodePacked (wrapped : Bool) :
    (decodePacked wrapped).InStep (Value.rename ρ) (decodePacked wrapped) := by
  unfold decodePacked decodePacked.boolean
  refine InStep.bind_same _ fun byte => ?_
  split
  · exact InStep.pure (by cases wrapped <;> rfl)
  · exact InStep.pure (by cases wrapped <;> rfl)
  · exact InStep.pure (by cases wrapped <;> rfl)
  · exact InStep.throw rfl

theorem inStep_decode (q : Primitive) (format : WireFormat) :
    (q.decode format).InStep (Value.rename ρ) (q.decode format) := by
  -- What is read from bytes of a primitive has no names in it.
  have hbox (e : Except DecodeError Scalar) :
      (do return q.box (← ofExcept e) : Decoder Value).InStep (Value.rename ρ)
        (do return q.box (← ofExcept e)) :=
    InStep.bind_same _ fun s => InStep.pure (Value.rename_box q s)
  unfold Primitive.decode
  split
  · exact InStep.bind_same _ fun u => hbox _
  · exact InStep.bind_same _ fun n => hbox _

section Decoders

variable {call call' : TypeName → Decoder Value}

variable (hcall : ∀ name, (call' (ρ.record name)).InStep (Value.rename ρ) (call name))
include hcall

/-- **Between two records** the same is read under new names, if that is so for records. -/
theorem decodeLayout_rename (a : Layout) :
    ((p.rename ρ).decodeLayout call' (a.rename ρ)).InStep (Value.rename ρ)
      (p.decodeLayout call a) := by
  -- By induction on the layout; the bytes that are read have no names in them.
  induction a with
  | primitive q => exact inStep_decode q p.format
  | text => exact inStep_decodeText
  | nullable inner ih =>
    rw [Layout.rename, decodeLayout, decodeLayout, packed?_rename]
    cases p.packed? inner with
    | some wrapped => exact inStep_decodePacked wrapped
    | none =>
      refine InStep.bind_same _ fun byte => ?_
      split
      · rw [Layout.nullValue_rename]
        exact InStep.pure (Layout.rename_nullValue inner)
      · split
        · exact ih
        · exact InStep.throw rfl
  | list member ih =>
    rw [Layout.rename, decodeLayout, decodeLayout]
    refine InStep.bind_same _ fun count => InStep.bind_same _ fun r => ?_
    simp only [(p.measuresAs_rename ρ).countLimit_eq]
    split
    · exact (ih.replicate count).bind fun vs => InStep.pure (Value.rename_list vs)
    · exact InStep.throw rfl
  | record name fields | reference name => exact hcall name
  | subtypes group members ih =>
    rw [Layout.rename_subtypes, decodeLayout, decodeLayout]
    refine InStep.bind_same _ fun tag => ?_
    -- A tag stands for the same member as before.
    have hmember : Option.Rel (fun d d' : Decoder Value => d'.InStep (Value.rename ρ) d)
        (p.decodeMember? call members tag)
        ((p.rename ρ).decodeMember? call' (members.map (renameMember ρ)) tag) :=
      optionRel_decodeMember? (List.forall₂_map_right_iff.2 <| List.forall₂_same.2 fun m hm =>
        ⟨show (renameMember ρ m).tag = m.tag from rfl, ih m hm⟩) tag
    generalize p.decodeMember? call members tag = d at hmember ⊢
    generalize (p.rename ρ).decodeMember? call' _ tag = d' at hmember ⊢
    cases hmember with
    | some hmember => exact hmember
    | none => exact InStep.throw rfl

/-- Fields are added under their new names. -/
theorem decodeFields_rename (type : TypeName) (fields : List (Field Layout))
    (done : FieldMap Value) :
    ((p.rename ρ).decodeFields call' (fields.map (renameField ρ type))
      (Value.renameFields ρ type done)).InStep (Value.renameFields ρ type)
      (p.decodeFields call fields done) := by
  -- The values that have been read are renamed along the way.
  induction fields generalizing done with
  | nil => exact InStep.pure rfl
  | cons f fields ih =>
    rw [List.map_cons, decodeFields, decodeFields]
    refine (decodeLayout_rename hcall f.layout).bind fun v => ?_
    have hrest := ih (done.insert f.name v)
    rwa [Value.renameFields_insert] at hrest

omit hcall in
theorem withDefaults_rename (name : TypeName) (fields : FieldMap Value) :
    (p.rename ρ).withDefaults (ρ.record name) (Value.renameFields ρ name fields) =
      Value.renameFields ρ name (p.withDefaults name fields) := by
  unfold withDefaults
  rw [omitted_rename, List.foldl_map]
  refine List.foldl_hom (Value.renameFields ρ name) fun m f => ?_
  rw [Value.renameFields_insert, Value.rename_default]
  exact congrArg _ (Layout.default_rename f.layout)

theorem decodeBody_rename (name : TypeName) :
    ((p.rename ρ).decodeBody call' (ρ.record name)).InStep (Value.rename ρ)
      (p.decodeBody call name) := by
  unfold decodeBody
  rw [present_rename]
  refine (decodeFields_rename hcall name (p.present name) []).bind fun fields => ?_
  rw [withDefaults_rename]
  exact InStep.pure rfl

end Decoders

/-- **Records are read alike**, by induction on how many may be nested in them. -/
theorem decodeRecord_rename (p : Program) (room : Nat) (name : TypeName) :
    ((p.rename ρ).decodeRecord room (ρ.record name)).InStep (Value.rename ρ)
      (p.decodeRecord room name) := by
  induction room generalizing name with
  | zero => exact InStep.throw rfl
  | succ room ih => exact (decodeBody_rename ih name).nested

/-- **What is read is the renaming of what was read.** -/
theorem decode_rename (p : Program) : (p.rename ρ).decode.InStep (Value.rename ρ) p.decode :=
  fun r => decodeLayout_rename (p.decodeRecord_rename (maxDepth - r.depth)) p.root r

end Program

end SchemaWire

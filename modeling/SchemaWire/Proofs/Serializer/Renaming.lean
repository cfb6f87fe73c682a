import Mathlib.Logic.Equiv.Basic
import SchemaWire.Proofs.Program.Renaming
import SchemaWire.Proofs.Schema.Renaming
import SchemaWire.Proofs.Serializer.Building
import SchemaWire.Proofs.Serializer.Header
/-!
# Names are not on the wire

Two serializers, one built from a schema and the other one from the same schema under new names,
differ in nothing but names: the layout of the second one is the renamed layout of the first
(`Serializer.BuiltFrom.layout_rename`), their programs are the same up to names, and they encode and
decode at the same versions. So a value and its renaming have the same encoding, down to the bytes
of one that fails halfway (`Serializer.BuiltFrom.encodeAt_rename`), and from any input both read the
same thing under different names, or neither reads anything
(`Serializer.BuiltFrom.decodeAt_rename`).
-/

namespace SchemaWire

open Decoder

variable {ρ : Renaming}

namespace Layout

theorem versionAt_rename (a : Layout) (version : Version) :
    (a.rename ρ).versionAt version = a.versionAt version := by
  rw [versionAt, versionAt, versions_rename]

theorem newest_rename (a : Layout) : (a.rename ρ).newest = a.newest := by
  rw [newest, newest, versions_rename]

/-- **Programs can be made** of a renamed layout if they can be made of the layout. -/
theorem isSome_compile_rename (a : Layout) (level : Level) (tagEncoding : TagEncoding) :
    (ProgramFamily.compile (a.rename ρ) level tagEncoding).isSome =
      (ProgramFamily.compile a level tagEncoding).isSome := by
  -- A family is made if the program of each version is, and the versions do not change with the
  -- names.
  have hcompiles (version : Version) :
      (Program.ofLayout (a.rename ρ) version level.format tagEncoding).compiles =
        (Program.ofLayout a version level.format tagEncoding).compiles := by
    rw [← Program.rename_ofLayout, Program.compiles_rename]
  have hall : (ProgramFamily.ofLayout (a.rename ρ) level tagEncoding).programs.all
      Program.compiles =
        (ProgramFamily.ofLayout a level tagEncoding).programs.all Program.compiles := by
    unfold ProgramFamily.programs ProgramFamily.ofLayout
    dsimp only
    rw [versions_rename, List.all_cons, List.all_cons, List.all_map, List.all_map, hcompiles]
    exact congrArg _ (congrArg (List.all _) (funext hcompiles))
  unfold ProgramFamily.compile
  dsimp only
  rw [hall]
  split <;> rfl

theorem SizesFit.rename {a : Layout} {level : Level} {tagEncoding : TagEncoding}
    (h : a.SizesFit level tagEncoding) (hfirst : a.SpelledFirst)
    (hfirst' : (a.rename ρ).SpelledFirst) : (a.rename ρ).SizesFit level tagEncoding := by
  rwa [← ProgramFamily.isSome_compile_iff hfirst', isSome_compile_rename,
    ProgramFamily.isSome_compile_iff hfirst]

end Layout

namespace Serializer

variable {s t : Serializer} {schema : Schema} {root : TypeExpr} {settings : Settings}

/-- **Two encodings are the same but for names**: both succeed, up to the same offset, or both fail,
with the same error but for names; and either way the buffers are the same afterwards. -/
def SameEncoding (r' r : Except EncodeError Nat × Array UInt8) : Prop :=
  r'.1.mapError EncodeError.anonymous = r.1.mapError EncodeError.anonymous ∧ r'.2 = r.2

theorem SameEncoding.eq_ok_iff {r' r : Except EncodeError Nat × Array UInt8}
    (h : SameEncoding r' r) {e : Nat} {buffer : Array UInt8} :
    r' = (.ok e, buffer) ↔ r = (.ok e, buffer) := by
  obtain ⟨result', buffer'⟩ := r'
  obtain ⟨result, _⟩ := r
  obtain ⟨hresult, rfl⟩ := h
  cases result' <;> cases result <;> simp_all [Except.mapError]

/-- Scripts that are the same but for names are performed alike. -/
theorem sameEncoding_of_anonymous {script script' : Script}
    (h : script'.anonymous = script.anonymous) (buffer : Array UInt8) (offset : Nat)
    (format : WireFormat) :
    SameEncoding (script'.writeInto buffer offset format)
      (script.writeInto buffer offset format) := by
  have hunnamed := script.writeInto_anonymous buffer offset format
  rw [← h, script'.writeInto_anonymous] at hunnamed
  exact Prod.ext_iff.1 hunnamed

theorem toOption_writeGrowing_of_anonymous {script script' : Script}
    (h : script'.anonymous = script.anonymous) (format : WireFormat) (size : Nat) :
    (script'.writeGrowing format size).toOption = (script.writeGrowing format size).toOption := by
  have hforget (r : Except EncodeError (Array UInt8)) :
      (r.mapError EncodeError.anonymous).toOption = r.toOption := by
    cases r <;> rfl
  rw [← hforget, ← Script.writeGrowing_anonymous, h, Script.writeGrowing_anonymous, hforget]

/-- Decoders in step read the same thing, up to the same offset, or nothing. -/
theorem toOption_decodeWith_of_inStep {d d' : Decoder Value} {g : Value → Value}
    (hformat : t.format = s.format) (h : d'.InStep g d) (input : Array UInt8) (offset : Nat) :
    (t.decodeWith input offset d').toOption =
      (s.decodeWith input offset d).toOption.map fun y => (g y.1, y.2) := by
  unfold decodeWith Reader.start
  rw [hformat]
  -- The cursors start alike or are refused alike, and from then on the decoders go in step.
  by_cases hoffset : offset ≤ input.size
  · rw [if_pos hoffset]
    simp only
    have hstart := h ⟨input.toList.drop offset, offset, input.size - offset, s.format, 0, by simp⟩
    cases hd : d ⟨input.toList.drop offset, offset, input.size - offset, s.format, 0, by simp⟩ with
    | ok y r =>
      rw [hd] at hstart
      simp only at hstart
      rw [hstart]
      rfl
    | error err r =>
      rw [hd] at hstart
      obtain ⟨err', herr', -⟩ := hstart
      rw [herr']
      rfl
  · rw [if_neg hoffset]
    rfl

namespace BuiltFrom

variable (hs : s.BuiltFrom schema root settings)
  (ht : t.BuiltFrom (schema.rename ρ) (root.rename ρ) settings)
include hs ht

/-- **The layout is the renamed one.** -/
theorem layout_rename : t.layout = s.layout.rename ρ := by
  have hlayout := Schema.layout_rename ρ hs.eq_ofLayout.1
  exact Except.ok.inj (ht.eq_ofLayout.1.symm.trans hlayout)

/-- **The program at a version is the renamed one.** -/
theorem programFor_rename (version : Version) :
    t.programs.programFor version = (s.programs.programFor version).rename ρ := by
  rw [ht.programFor_eq, hs.programFor_eq, programAt, programAt, Program.rename_ofLayout,
    hs.layout_rename ht, Layout.versionAt_rename, format, format, ht.level_eq, hs.level_eq]

theorem format_rename : t.format = s.format := by
  rw [format, format, ht.level_eq, hs.level_eq]

theorem maxVersion_rename : t.programs.maxVersion = s.programs.maxVersion := by
  rw [ht.maxVersion_eq, hs.maxVersion_eq, hs.layout_rename ht, Layout.newest_rename]

/-- Both have the same versions of their own. -/
theorem ownVersions_rename :
    t.encodeVersion = s.encodeVersion ∧ t.decodeVersion = s.decodeVersion := by
  have hmax := hs.maxVersion_rename ht
  -- Both serializers are of the same layouts up to names, so they have the same versions.
  obtain ⟨-, handle, hsLayout⟩ := hs.eq_ofLayout
  obtain ⟨-, handle', htLayout⟩ := ht.eq_ofLayout
  rw [hsLayout, htLayout] at hmax ⊢
  unfold ofLayout at hmax ⊢
  simp only at hmax ⊢
  rw [hmax]
  exact ⟨rfl, rfl⟩

theorem anonymous_scriptAt_rename (x : Value) (version : Version) :
    (t.scriptAt version (x.rename ρ)).anonymous = (s.scriptAt version x).anonymous := by
  rw [scriptAt, scriptAt, hs.programFor_rename ht]
  exact Program.script_rename _ maxDepth x

theorem anonymous_script_rename (x : Value) :
    (t.script (x.rename ρ)).anonymous = (s.script x).anonymous := by
  rw [script, script, Script.anonymous_append, Script.anonymous_append, ht.versionHeader_eq,
    hs.versionHeader_eq, (hs.ownVersions_rename ht).1, hs.anonymous_scriptAt_rename ht]

/-- **A renamed value is encoded as the value was**, at any version. -/
theorem encodeAt_rename (x : Value) (version : Version) (buffer : Array UInt8) (offset : Nat) :
    SameEncoding (t.encodeAt buffer offset (x.rename ρ) version)
      (s.encodeAt buffer offset x version) := by
  rw [encodeAt, encodeAt, hs.format_rename ht]
  exact sameEncoding_of_anonymous (hs.anonymous_scriptAt_rename ht x version) buffer offset _

theorem encode_rename (x : Value) (buffer : Array UInt8) (offset : Nat) :
    SameEncoding (t.encode buffer offset (x.rename ρ)) (s.encode buffer offset x) := by
  rw [encode, encode, hs.format_rename ht]
  exact sameEncoding_of_anonymous (hs.anonymous_script_rename ht x) buffer offset _

theorem encodeGrowing_rename (x : Value) :
    (t.encodeGrowing (x.rename ρ)).toOption = (s.encodeGrowing x).toOption := by
  rw [encodeGrowing, encodeGrowing, hs.format_rename ht]
  exact toOption_writeGrowing_of_anonymous (hs.anonymous_script_rename ht x) _ _

/-- **What is decoded is the renaming of what was decoded**, at any version. -/
theorem decodeAt_rename (input : Array UInt8) (offset : Nat) (version : Version) :
    (t.decodeAt input offset version).toOption =
      (s.decodeAt input offset version).toOption.map fun y => (y.1.rename ρ, y.2) := by
  rw [decodeAt, decodeAt, hs.programFor_rename ht]
  exact toOption_decodeWith_of_inStep (hs.format_rename ht) (Program.decode_rename _) input offset

theorem decode_rename (input : Array UInt8) (offset : Nat) :
    (t.decode input offset).toOption =
      (s.decode input offset).toOption.map fun y => (y.1.rename ρ, y.2) := by
  -- The header is read first, and it has no names in it.
  have hversion : t.readVersion = s.readVersion := by
    rw [readVersion, readVersion, ht.versionHeader_eq, hs.versionHeader_eq,
      hs.maxVersion_rename ht, (hs.ownVersions_rename ht).2]
  rw [decode, decode, hversion]
  refine toOption_decodeWith_of_inStep (hs.format_rename ht) ?_ input offset
  refine InStep.bind_same s.readVersion fun version => ?_
  rw [hs.programFor_rename ht]
  exact Program.decode_rename _

end BuiltFrom

/-- **Names never reach the wire.** If a type can be serialized, it can be serialized after records,
groups and fields have been renamed in the schema and in the type, with the renamed layout. Then a
renamed value is encoded exactly if the value was, into the same bytes, and whatever is decoded is
the renaming of what was decoded from the same bytes. -/
theorem names_not_on_wire (ρ : Renaming) (hs : s.BuiltFrom schema root settings) :
    (schema.rename ρ).Declared ∧
      (∀ cache, ∃ t cache',
        Builder.build ⟨schema.rename ρ, settings⟩ (root.rename ρ) cache = (.ok t, cache')) ∧
      ∀ t : Serializer, t.BuiltFrom (schema.rename ρ) (root.rename ρ) settings →
        t.layout = s.layout.rename ρ ∧
        (∀ buffer offset x version e buffer',
          t.encodeAt buffer offset (x.rename ρ) version = (.ok e, buffer') ↔
            s.encodeAt buffer offset x version = (.ok e, buffer')) ∧
        (∀ buffer offset x e buffer',
          t.encode buffer offset (x.rename ρ) = (.ok e, buffer') ↔
            s.encode buffer offset x = (.ok e, buffer')) ∧
        (∀ x, (t.encodeGrowing (x.rename ρ)).toOption = (s.encodeGrowing x).toOption) ∧
        (∀ input offset version, (t.decodeAt input offset version).toOption =
          (s.decodeAt input offset version).toOption.map fun y => (y.1.rename ρ, y.2)) ∧
        ∀ input offset, (t.decode input offset).toOption =
          (s.decode input offset).toOption.map fun y => (y.1.rename ρ, y.2) := by
  have hlayout := Schema.layout_rename ρ hs.eq_ofLayout.1
  refine ⟨hs.declared.rename, fun cache => ?_, fun t ht => ?_⟩
  · -- The sizes in the renamed layout fit as well, so there are programs for it.
    have hfits := hs.sizesFit.rename (ρ := ρ) (Schema.spelledFirst_of_layout hs.eq_ofLayout.1)
      (Schema.spelledFirst_of_layout hlayout)
    obtain ⟨t, ht⟩ : ∃ t, (Builder.build ⟨schema.rename ρ, settings⟩ (root.rename ρ) cache).1 =
        .ok t := Builder.exists_build_eq_ok_iff.2 ⟨_, hlayout, hfits⟩
    exact ⟨t, _, Prod.ext ht rfl⟩
  · refine ⟨hs.layout_rename ht, ?_, ?_, hs.encodeGrowing_rename ht, hs.decodeAt_rename ht,
      hs.decode_rename ht⟩
    · intro buffer offset x version e buffer'
      exact (hs.encodeAt_rename ht x version buffer offset).eq_ok_iff
    · intro buffer offset x e buffer'
      exact (hs.encode_rename ht x buffer offset).eq_ok_iff

end Serializer

/-! ### An example

Chains become links, and the flag and the size of a record take each other's names, so that they
stand in the other order in a value, but not on the wire. -/

/-- New names for chains. -/
def Chain.renaming : Renaming where
  record := Equiv.swap "Chain" "Link"
  group := id
  field _ := Equiv.swap "flag" "size"
  record_injective := Equiv.injective _
  group_injective := Function.injective_id
  field_injective _ := Equiv.injective _

namespace Serializer

/-- A chain of one with a size of 258, and the link that it becomes. -/
theorem names_not_on_wire_chain :
    let settings : Settings := { level := .level3, versionHeader := true }
    let s := Chain.serializer settings
    let x := Value.record "Chain" [("flag", .wrapped (some ⟨.bool, true⟩)), ("next", .null),
      ("size", .scalar ⟨.u16, 258⟩)]
    let y := Value.record "Link" [("flag", .scalar ⟨.u16, 258⟩), ("next", .null),
      ("size", .wrapped (some ⟨.bool, true⟩))]
    s.BuiltFrom Chain.schema (.record "Chain") settings ∧
      s.encode (Array.replicate 7 7) 1 x = (.ok 6, #[7, 1, 0, 2, 130, 2, 7]) ∧
      ∃ t : Serializer,
        t.BuiltFrom (Chain.schema.rename Chain.renaming) (.record "Link") settings ∧
        t.encode (Array.replicate 7 7) 1 y = (.ok 6, #[7, 1, 0, 2, 130, 2, 7]) ∧
        t.decode #[7, 1, 0, 2, 130, 2, 7] 1 = .ok (y, 6) := by
  intro settings s x y
  have hs : s.BuiltFrom Chain.schema (.record "Chain") settings := Chain.builtFrom settings
  have hencode : s.encode (Array.replicate 7 7) 1 x = (.ok 6, #[7, 1, 0, 2, 130, 2, 7]) := by
    decide +kernel
  have hdecode : s.decode #[7, 1, 0, 2, 130, 2, 7] 1 = .ok (x, 6) := by decide +kernel
  have hroot : (TypeExpr.record "Chain").rename Chain.renaming = .record "Link" := by decide
  have hvalue : x.rename Chain.renaming = y := by decide +kernel
  -- What the theorem gives for the chain, then evaluated.
  obtain ⟨hdeclared, hbuild, hsame⟩ := names_not_on_wire Chain.renaming hs
  obtain ⟨t, cache, ht⟩ := hbuild { number := 0 }
  have ht : t.BuiltFrom (Chain.schema.rename Chain.renaming)
      ((TypeExpr.record "Chain").rename Chain.renaming) settings := ⟨hdeclared, _, _, .new 0, ht⟩
  obtain ⟨-, -, hencodes, -, -, hdecodes⟩ := hsame t ht
  rw [hroot] at ht
  refine ⟨hs, hencode, t, ht, ?_, ?_⟩
  · rw [← hvalue, hencodes]
    exact hencode
  · have hread := hdecodes #[7, 1, 0, 2, 130, 2, 7] 1
    rw [hdecode] at hread
    -- Both have decoded or neither has.
    cases hresult : t.decode #[7, 1, 0, 2, 130, 2, 7] 1 with
    | ok z =>
      rw [hresult] at hread
      exact congrArg Except.ok ((Option.some.inj hread).trans (congrArg (·, 6) hvalue))
    | error err =>
      rw [hresult] at hread
      cases hread

end Serializer

end SchemaWire

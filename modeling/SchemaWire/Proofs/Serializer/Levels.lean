import SchemaWire.Proofs.Program.Levels
import SchemaWire.Proofs.Serializer.Appending
/-!
# How the levels differ

From the second level on a level changes one thing about the one before it: the third packs a
boolean that may be missing into one byte, and its little-endian form changes the byte order. None
of this has to do with which values are accepted, so the same values can be encoded at all of these
levels, and the differences are in their bytes alone (`Serializer.levels_compared`).
-/

namespace SchemaWire

namespace Serializer

variable {s s₂ s₃ sLe : Serializer} {schema : Schema} {root : TypeExpr} {settings : Settings}
  {level : Level} {version : Version} {x : Value}

/-- How many booleans a value holds where they may be missing, in the fields on the wire at a
version. -/
def optionalBooleans (s : Serializer) (version : Version) (x : Value) : Nat :=
  (s.layout.snapshot version).optionalBooleans s.layout x

theorem BuiltFrom.format_eq (hs : s.BuiltFrom schema root settings) :
    s.format = settings.level.format :=
  congrArg Level.format hs.level_eq

/-- A serializer at another level with the same varints uses the program of the third level in
another format. -/
theorem BuiltFrom.reformats (h₃ : s₃.BuiltFrom schema root { settings with level := .level3 })
    (hs : s.BuiltFrom schema root { settings with level })
    (hlengths : level.format.varintLengths = true) (hintegers : level.format.varintIntegers = true)
    (version : Version) :
    (s.programAt settings.tagEncoding version).Reformats
      (s₃.programAt settings.tagEncoding version) := by
  have hlayout : s.layout = s₃.layout :=
    Except.ok.inj (hs.eq_ofLayout.1.symm.trans h₃.eq_ofLayout.1)
  unfold programAt
  rw [hlayout, hs.format_eq, h₃.format_eq]
  exact ⟨rfl, rfl, rfl, rfl, hlengths, hintegers, rfl⟩

/-- The steps of such a serializer differ in booleans from those at the third level: one byte more
for each, if booleans are not packed. -/
theorem BuiltFrom.unpacks_scriptAt
    (h₃ : s₃.BuiltFrom schema root { settings with level := .level3 })
    (hs : s.BuiltFrom schema root { settings with level })
    (hlengths : level.format.varintLengths = true) (hintegers : level.format.varintIntegers = true)
    (version : Version) (x : Value) :
    Script.Unpacks (s₃.scriptAt version x) (s.scriptAt version x)
      ((if level.format.packedBooleans then 0 else 1) * s₃.optionalBooleans version x) := by
  -- Both programs are of the same layout, so they differ in the format only.
  have hreformats := h₃.reformats hs hlengths hintegers version
  have hunpacks := hreformats.unpacks_script (h₃.proper version) maxDepth x
  have hsnapshot := s₃.snapshot_programAt settings.tagEncoding version
  unfold Program.presenceBytes Program.presenceSize at hunpacks
  rw [hsnapshot] at hunpacks
  rw [h₃.scriptAt_eq, hs.scriptAt_eq, ← hs.format_eq]
  exact hunpacks

/-- **The levels compared.** Take the serializers of a root type at the second and the third level
and at the little-endian form of the third, with the same tag encoding. At every version they accept
the same values. At the second level a value takes one byte more for each boolean that it holds
where one may be missing, and if it holds none, its bytes are those of the third level; in
little-endian form it takes as many bytes. -/
theorem levels_compared (h₂ : s₂.BuiltFrom schema root { settings with level := .level2 })
    (h₃ : s₃.BuiltFrom schema root { settings with level := .level3 })
    (hLe : sLe.BuiltFrom schema root { settings with level := .level3Le }) (version : Version)
    (x : Value) :
    (s₂.Accepts version x ↔ s₃.Accepts version x) ∧
      (sLe.Accepts version x ↔ s₃.Accepts version x) ∧
      (s₃.Accepts version x → ∃ bytes₂ bytes₃ bytesLe,
        Frames (s₂.encodeAt · · x version) bytes₂ ∧ Frames (s₃.encodeAt · · x version) bytes₃ ∧
        Frames (sLe.encodeAt · · x version) bytesLe ∧
        bytes₂.length = bytes₃.length + s₃.optionalBooleans version x ∧
        bytesLe.length = bytes₃.length ∧
        (s₃.optionalBooleans version x = 0 → bytes₂ = bytes₃)) := by
  -- Level 3 against level 2 differs in presence bytes, against the little-endian level in none.
  have hunpacks := h₃.unpacks_scriptAt h₂ rfl rfl version x
  rw [if_neg (by decide), Nat.one_mul] at hunpacks
  have hsame := h₃.unpacks_scriptAt hLe rfl rfl version x
  rw [if_pos (by decide), Nat.zero_mul] at hsame
  simp only [accepts_iff_valid]
  refine ⟨hunpacks.valid_iff, hsame.valid_iff, fun hvalid => ?_⟩
  refine ⟨_, _, _, frames_encodeAt (hunpacks.valid_iff.2 hvalid), frames_encodeAt hvalid,
    frames_encodeAt (hsame.valid_iff.2 hvalid), ?_, ?_, fun hzero => ?_⟩
  · -- The steps are no longer in one byte order than in the other.
    have hformat : s₂.format.varintLengths = s₃.format.varintLengths := by
      rw [h₂.format_eq, h₃.format_eq]
      rfl
    rw [Script.length_bytes_congr hformat]
    exact hunpacks.length hvalid s₃.format
  · have hformat : sLe.format.varintLengths = s₃.format.varintLengths := by
      rw [hLe.format_eq, h₃.format_eq]
      rfl
    rw [hsame.eq_of_zero hvalid rfl, Script.length_bytes_congr hformat]
  · rw [hunpacks.eq_of_zero hvalid hzero, h₂.format_eq, h₃.format_eq]
    exact Script.bytes_congr rfl rfl _

/-- A chain of three of which one has no flag: two bytes more at the second level. -/
theorem levels_compared_chain :
    let s₂ := Chain.serializer { level := .level2 }
    let s₃ := Chain.serializer { level := .level3 }
    let sLe := Chain.serializer { level := .level3Le }
    let chain (flag : Option Bool) (next : Value) := Value.record "Chain"
      [("flag", .wrapped (flag.map fun b => ⟨.bool, b⟩)), ("next", next)]
    let x := chain (some true) (chain none (chain (some false) .null))
    s₃.optionalBooleans 0 x = 2 ∧ s₃.Accepts 0 x ∧ s₂.Accepts 0 x ∧ sLe.Accepts 0 x ∧
      ∃ bytes₂ bytesLe, Frames (s₂.encodeAt · · x 0) bytes₂ ∧ bytes₂.length = 8 ∧
        Frames (sLe.encodeAt · · x 0) bytesLe ∧ bytesLe.length = 6 := by
  intro s₂ s₃ sLe chain x
  -- The value has two optional booleans that are there, and one that is null.
  have hcount : s₃.optionalBooleans 0 x = 2 := by decide +kernel
  have hencode : s₃.encodeAt (Array.replicate 6 0) 0 x 0 = (.ok 6, #[1, 1, 0, 1, 0, 2]) := by
    decide +kernel
  have hx : s₃.Accepts 0 x := ⟨_, _, _, _, hencode⟩
  obtain ⟨h₂, hLe, hbytes⟩ := @levels_compared s₂ s₃ sLe Chain.schema (.record "Chain") {}
    (Chain.builtFrom _) (Chain.builtFrom _) (Chain.builtFrom _) 0 x
  obtain ⟨bytes₂, bytes₃, bytesLe, hframes₂, hframes₃, hframesLe, hlength₂, hlengthLe, -⟩ :=
    hbytes hx
  obtain ⟨hsix, -⟩ := hframes₃.bytes_eq hencode
  rw [hcount] at hlength₂
  exact ⟨hcount, hx, h₂.2 hx, hLe.2 hx, bytes₂, bytesLe, hframes₂, by omega, hframesLe, by omega⟩

end Serializer

end SchemaWire

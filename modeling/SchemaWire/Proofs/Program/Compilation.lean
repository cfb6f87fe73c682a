import SchemaWire.Proofs.Program.Table
import SchemaWire.Proofs.Program.Versions
/-!
# Which programs can be made

Making a program ready for use goes through its root and the fields on the wire of its records, and
stops at the records in them (`Program.Prepares`). It breaks down in two places: at a record that is
not found, and at a list whose members have a least size that does not fit a word
(`Program.compiles_iff`).

In a layout that spells its records out every record is found. So its programs can be made exactly
if the sizes fit (`ProgramFamily.compile_eq_some_iff`), which is a matter of the layout, the level
and the tag encoding (`Layout.SizesFit`). They do fit if no list has records for members
(`Layout.sizesFit_of_plain`).
-/

namespace SchemaWire

namespace Layout

/-- **The nodes of a layout that are met without entering a record.** -/
inductive Exposes : Layout → Layout → Prop
  | self (a : Layout) : Exposes a a
  | nullable {inner b : Layout} (h : Exposes inner b) : Exposes (.nullable inner) b
  | list {member b : Layout} (h : Exposes member b) : Exposes (.list member) b
  | subtypes {group : GroupName} {members : List (Member Layout)} {m : Member Layout} {b : Layout}
      (hm : m ∈ members) (h : Exposes m.layout b) : Exposes (.subtypes group members) b

variable {a b : Layout}

theorem Exposes.mem_nodes (h : a.Exposes b) : b ∈ a.nodes := by
  induction h with
  | self a => exact a.mem_nodes_self
  | nullable _ ih | list _ ih => exact mem_nodes_of_part List.mem_cons_self ih
  | subtypes hm _ ih => exact mem_nodes_of_part (member_mem_parts hm) ih

end Layout

namespace Program

variable {p q : Program} {a b : Layout}

/-- A node can be made ready by itself: its record is found, or the size of its members fits. -/
structure Ready (p : Program) (b : Layout) : Prop where
  found : ∀ name, b.recordName? = some name → (p.records.lookup name).isSome
  fits : ∀ member, b = .list member → p.minSize member < 2 ^ 64

/-- **The nodes that are made ready** together with a program. -/
inductive Prepares (p : Program) (b : Layout) : Prop
  | root (h : p.root.Exposes b)
  | field {r : TypeName × List (Field Layout)} {f : Field Layout} (hr : r ∈ p.records)
      (hf : f ∈ p.present r.1) (h : f.layout.Exposes b)

/-- **The least sizes of the members of all lists fit a word.** -/
def SizesFit (p : Program) : Prop :=
  ∀ member, p.Prepares (.list member) → p.minSize member < 2 ^ 64

theorem compilesMembers_eq_true_iff {members : List (Member Layout)} :
    p.compilesMembers members = true ↔ ∀ m ∈ members, p.compilesLayout m.layout = true := by
  induction members with
  | nil => exact iff_of_true rfl (List.forall_mem_nil _)
  | cons m members ih =>
    rw [compilesMembers, Bool.and_eq_true, ih, List.forall_mem_cons]

/-- **A layout can be made ready** if its nodes outside of records can. -/
theorem compilesLayout_iff : p.compilesLayout a = true ↔ ∀ b, a.Exposes b → p.Ready b := by
  -- A node that holds no others is the only one that it exposes, and is no list.
  have alone {a : Layout} (ha : ∀ b, a.Exposes b → b = a) (hlist : ∀ member, a ≠ .list member) :
      (∀ b, a.Exposes b → p.Ready b) ↔
        ∀ name, a.recordName? = some name → (p.records.lookup name).isSome := by
    refine ⟨fun h => (h a (.self a)).found, fun h b hb => ?_⟩
    obtain rfl := ha b hb
    exact ⟨h, fun member hmember => absurd hmember (hlist member)⟩
  induction a with
  | primitive _ | text =>
    refine Iff.trans (iff_of_true rfl nofun) (alone ?_ ?_).symm
    · rintro b ⟨⟩
      rfl
    · nofun
  | record name _ | reference name =>
    refine Iff.trans ?_ (alone ?_ ?_).symm
    · exact ⟨fun h _ hname => Option.some.inj hname ▸ h, fun h => h name rfl⟩
    · rintro b ⟨⟩
      rfl
    · nofun
  | nullable inner ih =>
    rw [compilesLayout]
    -- A cover exposes itself and what its content exposes.
    refine ih.trans ⟨fun h b hb => ?_, fun h b hb => h b hb.nullable⟩
    cases hb with
    | self => exact ⟨nofun, nofun⟩
    | nullable hb => exact h b hb
  | list member ih =>
    rw [compilesLayout, Bool.and_eq_true, fits_wordSize]
    refine (and_congr_left' ih).trans ⟨?_, ?_⟩
    · rintro ⟨h, hfits⟩ b hb
      cases hb with
      | self => exact ⟨nofun, fun _ hmember => Layout.list.inj hmember ▸ hfits⟩
      | list hb => exact h b hb
    -- The list itself is ready if the size of its member fits.
    · exact fun h => ⟨fun b hb => h b hb.list, (h _ (.self _)).fits member rfl⟩
  | subtypes group members ih =>
    rw [compilesLayout, compilesMembers_eq_true_iff]
    constructor
    · intro h b hb
      cases hb with
      | self => exact ⟨nofun, nofun⟩
      | subtypes hm hb => exact (ih _ hm).1 (h _ hm) b hb
    · exact fun h m hm => (ih m hm).2 fun b hb => h b (.subtypes hm hb)

/-- **A program can be made** if all nodes that this comes upon can be made ready. -/
theorem compiles_iff : p.compiles = true ↔ ∀ b, p.Prepares b → p.Ready b := by
  simp only [compiles, Bool.and_eq_true, List.all_eq_true, compilesLayout_iff]
  constructor
  · rintro ⟨hroot, hfields⟩ b (hb | ⟨hr, hf, hb⟩)
    · exact hroot b hb
    · exact hfields _ hr _ hf b hb
  · exact fun h => ⟨fun b hb => h b (.root hb), fun r hr f hf b hb => h b (.field hr hf hb)⟩

/-! ### Layouts that spell their records out -/

/-- Only nodes of the layout are made ready. -/
theorem Prepares.mem_nodes {version : Version} {format : WireFormat} {tagEncoding : TagEncoding}
    (hb : (ofLayout a version format tagEncoding).Prepares b) : b ∈ a.nodes := by
  cases hb with
  | root hb => exact hb.mem_nodes
  | field hr hf hb =>
    obtain ⟨hrecord, -⟩ := Layout.record_fieldsOf_mem_nodes (Layout.mem_records_iff.1 hr)
    have hlayout := Layout.mem_nodes_of_mem_parts hrecord
      (Layout.layout_mem_parts (mem_present.1 hf).1)
    exact Layout.nodes_trans hlayout hb.mem_nodes

/-- A node that is made ready mentions a record only if that is spelled out. -/
theorem Prepares.isSome_lookup {version : Version} {format : WireFormat} {tagEncoding : TagEncoding}
    (h : a.SpelledFirst) (hb : (ofLayout a version format tagEncoding).Prepares b)
    {name : TypeName} (hname : b.recordName? = some name) :
    ((ofLayout a version format tagEncoding).records.lookup name).isSome := by
  have hlooked : (ofLayout a version format tagEncoding).LooksUp name := by
    cases hb with
    | root hb => exact .root hb.mem_nodes hname
    | @field r f hr hf hb =>
      -- The record that holds the field is looked up, since the layout spells it out.
      have hrecord : (ofLayout a version format tagEncoding).LooksUp r.1 :=
        .root (Layout.mem_records_iff.1 hr) rfl
      exact hrecord.of_mem_present hf b hb.mem_nodes name hname
  obtain ⟨-, fields, -, hlookup⟩ := closed_ofLayout h version format tagEncoding name hlooked
  exact hlookup ▸ rfl

/-- **The program of a layout that spells its records out can be made** if the sizes fit. -/
theorem compiles_ofLayout_iff (h : a.SpelledFirst) {version : Version} {format : WireFormat}
    {tagEncoding : TagEncoding} : (ofLayout a version format tagEncoding).compiles = true ↔
      (ofLayout a version format tagEncoding).SizesFit := by
  rw [compiles_iff]
  refine ⟨fun hready member hmember => (hready _ hmember).fits member rfl, fun hfits b hb => ?_⟩
  exact ⟨fun name hname => hb.isSome_lookup h hname, fun member heq => hfits member (heq ▸ hb)⟩

/-! ### Sizes at all versions -/

theorem present_versionAt (a : Layout) (version : Version) (format : WireFormat)
    (tagEncoding : TagEncoding) (name : TypeName) :
    (ofLayout a (a.versionAt version) format tagEncoding).present name =
      (ofLayout a version format tagEncoding).present name :=
  congrFun (congrArg Snapshot.present (a.snapshot_versionAt version)) name

theorem minSize_versionAt (a b : Layout) (version : Version) (format : WireFormat)
    (tagEncoding : TagEncoding) :
    (ofLayout a (a.versionAt version) format tagEncoding).minSize b =
      (ofLayout a version format tagEncoding).minSize b := by
  refine minSize_congr ?_ ?_ (present_versionAt a version format tagEncoding) ?_ b <;> rfl

/-- Between two changes of a layout the same nodes are made ready. -/
theorem prepares_versionAt (version : Version) {format : WireFormat} {tagEncoding : TagEncoding} :
    (ofLayout a (a.versionAt version) format tagEncoding).Prepares b ↔
      (ofLayout a version format tagEncoding).Prepares b := by
  have hpresent := present_versionAt a version format tagEncoding
  constructor
  · rintro (hb | ⟨hr, hf, hb⟩)
    · exact .root hb
    · exact .field hr (hpresent _ ▸ hf) hb
  · rintro (hb | ⟨hr, hf, hb⟩)
    · exact .root hb
    · exact .field hr ((hpresent _).symm ▸ hf) hb

theorem sizesFit_versionAt (version : Version) {format : WireFormat} {tagEncoding : TagEncoding} :
    (ofLayout a (a.versionAt version) format tagEncoding).SizesFit ↔
      (ofLayout a version format tagEncoding).SizesFit := by
  simp only [SizesFit, prepares_versionAt, minSize_versionAt]

end Program

namespace Layout

variable {a : Layout} {level : Level} {tagEncoding : TagEncoding}

/-- **All programs of a layout can do with words for sizes.** -/
def SizesFit (a : Layout) (level : Level) (tagEncoding : TagEncoding) : Prop :=
  ∀ version, (Program.ofLayout a version level.format tagEncoding).SizesFit

/-- The members of a list. -/
def member? : Layout → Option Layout
  | .list member => some member
  | _ => none

/-- Where no list has records for members, all sizes fit. -/
theorem sizesFit_of_plain (h : ∀ b ∈ a.nodes, ∀ member ∈ b.member?, member.recordName? = none)
    (level : Level) (tagEncoding : TagEncoding) : a.SizesFit level tagEncoding := by
  intro version member hmember
  rw [Program.minSize_eq (.plain (h _ hmember.mem_nodes member rfl))]
  exact Nat.lt_of_le_of_lt (Program.plainSize_le member) (by decide)

end Layout

namespace ProgramFamily

variable {a : Layout} {level : Level} {tagEncoding : TagEncoding} {programs : ProgramFamily}

/-- What has been made is the family of the layout. -/
theorem eq_ofLayout_of_compile (h : compile a level tagEncoding = some programs) :
    programs = ofLayout a level tagEncoding := by
  unfold compile at h
  dsimp only at h
  split at h
  · exact (Option.some.inj h).symm
  · cases h

/-- **The programs of a layout that spells its records out** are made as long as the sizes fit. -/
theorem compile_eq_some_iff (h : a.SpelledFirst) : compile a level tagEncoding = some programs ↔
    programs = ofLayout a level tagEncoding ∧ a.SizesFit level tagEncoding := by
  have hprograms : (ofLayout a level tagEncoding).programs =
      (0 :: a.versions.filter (· ≠ 0)).map fun version =>
        Program.ofLayout a version level.format tagEncoding := rfl
  have hall : (ofLayout a level tagEncoding).programs.all Program.compiles = true ↔
      a.SizesFit level tagEncoding := by
    rw [List.all_eq_true, hprograms]
    constructor
    · -- Every version is served by a program that has been made.
      intro hcompiles version
      rw [← Program.sizesFit_versionAt, ← Program.compiles_ofLayout_iff h]
      exact hcompiles _ (List.mem_map_of_mem (Layout.lastVersion_mem version 0 _))
    · rintro hfits p hp
      obtain ⟨version, -, rfl⟩ := List.mem_map.1 hp
      exact (Program.compiles_ofLayout_iff h).2 (hfits version)
  unfold compile
  dsimp only
  split
  · next hmade =>
    refine ⟨fun heq => ⟨(Option.some.inj heq).symm, hall.1 hmade⟩, fun heq => ?_⟩
    rw [heq.1]
  · next hmade => exact ⟨nofun, fun heq => absurd (hall.2 heq.2) hmade⟩

theorem compile_eq_none_iff (h : a.SpelledFirst) :
    compile a level tagEncoding = none ↔ ¬a.SizesFit level tagEncoding := by
  rw [Option.eq_none_iff_forall_ne_some]
  refine ⟨fun hnone hfits => ?_, fun hfits programs heq => ?_⟩
  · exact hnone _ ((compile_eq_some_iff h).2 ⟨rfl, hfits⟩)
  · exact hfits ((compile_eq_some_iff h).1 heq).2

theorem isSome_compile_iff (h : a.SpelledFirst) :
    (compile a level tagEncoding).isSome ↔ a.SizesFit level tagEncoding := by
  rw [Option.isSome_iff_ne_none, Ne, compile_eq_none_iff h, not_not]

end ProgramFamily

end SchemaWire

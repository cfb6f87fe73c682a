import SchemaWire.Program.Family
import SchemaWire.Proofs.Layout.Nodes
/-!
# The program that applies at a version

A family has a program for version 0 and for every version at which its layout changes. The one that
applies at any other version is that of the last change before it (`Layout.versionAt`), so it puts
the same fields on the wire as a program made for the version itself
(`Layout.added_le_versionAt_iff`, `Layout.snapshot_versionAt`). The greatest version that has a
program is the newest one of the layout (`ProgramFamily.maxVersion_ofLayout`).
-/

namespace SchemaWire

namespace Layout

variable {a : Layout} {v w : Version}

/-- The last of some versions, in the order given, that is not above a version. -/
def lastVersion (v : Version) (first : Version) (later : List Version) : Version :=
  later.foldl (fun found w => if w ≤ v then w else found) first

/-- The last version, not above the given one, at which the layout changes. -/
def versionAt (a : Layout) (v : Version) : Version :=
  lastVersion v 0 (a.versions.filter (· ≠ 0))

theorem lastVersion_le {first : Version} {later : List Version} (h : first ≤ v) :
    lastVersion v first later ≤ v := by
  -- The version in hand stays below the wanted one at every turn.
  induction later generalizing first with
  | nil => exact h
  | cons w later ih =>
    rw [lastVersion, List.foldl_cons]
    split
    · next hw => exact ih hw
    · exact ih h

theorem le_lastVersion {first : Version} {later : List Version} (h : ∀ w ∈ later, first ≤ w)
    (hsorted : later.Pairwise (· < ·)) : first ≤ lastVersion v first later := by
  -- The versions grow, so the last one that is not too late is at least the first.
  induction later generalizing first with
  | nil => exact UInt32.le_refl first
  | cons w later ih =>
    obtain ⟨hw, hlater⟩ := List.forall_mem_cons.1 h
    obtain ⟨hrest, hsorted⟩ := List.pairwise_cons.1 hsorted
    rw [lastVersion, List.foldl_cons]
    split
    · exact UInt32.le_trans hw (ih (fun u hu => UInt32.le_of_lt (hrest u hu)) hsorted)
    · exact ih hlater hsorted

/-- None of the versions lies between the last one and the one that is asked for. -/
theorem le_lastVersion_of_mem {first : Version} {later : List Version}
    (hsorted : later.Pairwise (· < ·)) (hw : w ∈ later) (h : w ≤ v) :
    w ≤ lastVersion v first later := by
  -- Sorted: a version is passed by only for a greater one.
  induction later generalizing first with
  | nil => cases hw
  | cons u later ih =>
    obtain ⟨hrest, htail⟩ := List.pairwise_cons.1 hsorted
    rw [lastVersion, List.foldl_cons]
    rcases List.mem_cons.1 hw with rfl | hw
    · rw [if_pos h]
      exact le_lastVersion (fun u hu => UInt32.le_of_lt (hrest u hu)) htail
    · exact ih htail hw

theorem lastVersion_mem (v first : Version) (later : List Version) :
    lastVersion v first later ∈ first :: later := by
  induction later generalizing first with
  | nil => exact List.mem_cons_self
  | cons w later ih =>
    rw [lastVersion, List.foldl_cons]
    split
    · exact List.mem_cons_of_mem _ (ih w)
    · exact List.cons_subset_cons _ (List.subset_cons_self _ _) (ih first)

/-- The version of a program is 0 or one at which the layout changes. -/
theorem versionAt_mem (a : Layout) (v : Version) : a.versionAt v ∈ 0 :: a.versions :=
  List.cons_subset_cons _ List.filter_sublist.subset (lastVersion_mem v 0 _)

theorem versionAt_le (a : Layout) (v : Version) : a.versionAt v ≤ v :=
  lastVersion_le (UInt32.zero_le)

theorem pairwise_versions (a : Layout) : (a.versions.filter (· ≠ 0)).Pairwise (· < ·) :=
  (pairwise_ascendingVersions _).filter _

/-- **Between two changes nothing changes**: a field is on the wire at a version exactly if it is at
the last change before it. -/
theorem added_le_versionAt_iff {name : TypeName} {f : Field Layout} (hf : f ∈ a.fieldsOf name) :
    f.added ≤ a.versionAt v ↔ f.added ≤ v := by
  -- The version of the field is itself a version at which the layout changes.
  refine ⟨fun h => UInt32.le_trans h (a.versionAt_le v), fun h => ?_⟩
  by_cases hzero : f.added = 0
  · rw [hzero]
    exact UInt32.zero_le
  · refine le_lastVersion_of_mem a.pairwise_versions ?_ h
    exact List.mem_filter.2 ⟨added_mem_versions hf, by simpa using hzero⟩

theorem snapshot_versionAt (a : Layout) (v : Version) :
    a.snapshot (a.versionAt v) = a.snapshot v := by
  unfold snapshot
  congr 1 <;> funext name <;> refine List.filter_congr fun f hf => ?_
  · exact decide_eq_decide.2 (added_le_versionAt_iff hf)
  · exact decide_eq_decide.2 (by
      rw [← UInt32.not_le, ← UInt32.not_le, added_le_versionAt_iff hf])

/-! ### The newest version -/

/-- The greatest version at which a field of a layout is added, and 0 if there is none. -/
def newest (a : Layout) : Version := a.versions.getLast?.getD 0

theorem newest_eq_zero_or_mem (a : Layout) : a.newest = 0 ∨ a.newest ∈ a.versions := by
  unfold newest
  cases hlast : a.versions.getLast? with
  | none => exact .inl rfl
  | some v => exact .inr (List.mem_of_getLast? hlast)

/-- In an ascending list no member is above the last one. -/
theorem le_getLast?_getD {vs : List Version} (hsorted : vs.Pairwise (· < ·)) (hv : v ∈ vs) :
    v ≤ vs.getLast?.getD 0 := by
  -- Sorted, so the last version is the greatest.
  rcases List.eq_nil_or_concat vs with rfl | ⟨before, last, rfl⟩
  · cases hv
  · rw [List.concat_eq_append] at hsorted hv ⊢
    rw [List.getLast?_concat, Option.getD_some]
    rcases List.mem_append.1 hv with hv | hv
    · exact UInt32.le_of_lt ((List.pairwise_append.1 hsorted).2.2 v hv last List.mem_cons_self)
    · exact UInt32.le_of_eq (List.mem_singleton.1 hv)

theorem le_newest (hv : v ∈ a.versions) : v ≤ a.newest :=
  le_getLast?_getD (pairwise_ascendingVersions _) hv

/-- Version 0 comes first if it is there at all, so the last version is another one or stands
alone. -/
theorem getLast?_filter_getD {vs : List Version} (hsorted : vs.Pairwise (· < ·)) :
    (vs.filter (· ≠ 0)).getLast?.getD 0 = vs.getLast?.getD 0 := by
  rcases List.eq_nil_or_concat vs with rfl | ⟨before, last, rfl⟩
  · rfl
  · rw [List.concat_eq_append] at hsorted ⊢
    rw [List.getLast?_concat, List.filter_append]
    -- If the last version is 0, it is the only one.
    by_cases hlast : last = 0
    · have hbefore : before = [] := by
        refine List.eq_nil_iff_forall_not_mem.2 fun w hw => ?_
        have := (List.pairwise_append.1 hsorted).2.2 w hw last List.mem_cons_self
        exact UInt32.not_lt_zero (hlast ▸ this)
      rw [hbefore, hlast]
      rfl
    · rw [List.filter_cons_of_pos (by simpa using hlast)]
      rw [List.filter_nil, List.getLast?_concat]

end Layout

namespace ProgramFamily

variable {a : Layout} {level : Level} {tagEncoding : TagEncoding}

/-- **The program that applies at a version** is the one of the last change before it. -/
theorem programFor_ofLayout (a : Layout) (level : Level) (tagEncoding : TagEncoding) (v : Version) :
    (ofLayout a level tagEncoding).programFor v =
      Program.ofLayout a (a.versionAt v) level.format tagEncoding := by
  -- Choosing among programs is choosing among their versions.
  change (List.map _ _).foldl _ (Program.ofLayout a 0 level.format tagEncoding) = _
  rw [List.foldl_map]
  refine List.foldl_hom (fun w => Program.ofLayout a w level.format tagEncoding) fun found w => ?_
  change (if w ≤ v then _ else _) = _
  split <;> rfl

/-- **The greatest version that has a program** is the newest one of the layout. -/
theorem maxVersion_ofLayout (a : Layout) (level : Level) (tagEncoding : TagEncoding) :
    (ofLayout a level tagEncoding).maxVersion = a.newest := by
  have hfilter : (a.versions.filter (· ≠ 0)).getLast?.getD 0 = a.versions.getLast?.getD 0 :=
    Layout.getLast?_filter_getD (pairwise_ascendingVersions _)
  rw [Layout.newest, ← hfilter]
  unfold maxVersion ofLayout
  rw [List.getLast?_map]
  cases (a.versions.filter (· ≠ 0)).getLast? <;> rfl

end ProgramFamily

end SchemaWire

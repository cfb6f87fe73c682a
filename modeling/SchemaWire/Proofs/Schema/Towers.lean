import SchemaWire.Proofs.Program.Compilation
import SchemaWire.Proofs.Schema.Acceptance
import SchemaWire.Proofs.Schema.Outcome
/-!
# Towers of records

The least size of a record is the sum of those of its fields, and it is found record by record, so a
few declarations describe sizes far beyond what a machine can address. In a **tower** every record
has as many fields of the record below as the tower is wide, and at the bottom there is a single
boolean. Nothing in the registration of records keeps such sizes out, nor in the resolution of
types: all towers are declared (`Tower.declared_schema`) and nothing is missing for them
(`Tower.complete`), and the least size of one is its width to the power of its height
(`Tower.hasSize`). For the members of a list this may be too much (`Tower.sizesFit_iff`).
-/

namespace SchemaWire

namespace Tower

variable {width height i j : Nat}

/-- The names of records and fields, by number. -/
def name (i : Nat) : String := String.ofList (List.replicate (i + 1) 'D')

/-- The declaration of the record at a height. -/
def decl (width : Nat) : Nat → RecordDecl
  | 0 => { name := name 0, fields := [{ name := name 0, type := .scalar .bool }] }
  | i + 1 =>
    { name := name (i + 1)
      fields := (List.range width).map fun j => { name := name j, type := .record (name i) } }

/-- A schema of the records up to a height. -/
def schema (width : Nat) : (height : Nat) → Schema
  | 0 => { records := [decl width 0] }
  | height + 1 =>
    { schema width height with
      records := (schema width height).records ++ [decl width (height + 1)] }

/-- Lists of towers. -/
def root (height : Nat) : TypeExpr := .list (.record (name height))

theorem name_injective : Function.Injective name := by
  intro i j h
  have hlength := congrArg (fun s => s.toList.length) h
  simpa [name] using hlength

theorem name_decl (width i : Nat) : (decl width i).name = name i := by cases i <;> rfl

theorem mem_fields_decl {f : FieldDecl} (hf : f ∈ (decl width i).fields) :
    f.added = 0 ∧ f.order = none ∧ f.varLength = false ∧
      (f.type = .scalar .bool ∨ ∃ j, i = j + 1 ∧ f.type = .record (name j)) := by
  -- The lowest record has one boolean, the others refer to the one below.
  cases i with
  | zero =>
    obtain rfl := List.mem_singleton.1 hf
    exact ⟨rfl, rfl, rfl, .inl rfl⟩
  | succ i =>
    obtain ⟨j, -, rfl⟩ := List.mem_map.1 hf
    exact ⟨rfl, rfl, rfl, .inr ⟨i, rfl, rfl⟩⟩

theorem wireFields_decl (width i : Nat) : (decl width i).wireFields = (decl width i).fields :=
  RecordDecl.wireFields_of_none fun _ hf => (mem_fields_decl hf).2.1

theorem check_decl (width i : Nat) : (decl width i).check = .ok () := by
  refine RecordDecl.check_eq_ok_iff.2 ⟨?_, ⟨.inr fun f hf => (mem_fields_decl hf).2.1, ?_⟩, ?_, ?_⟩
  · -- One field for the lowest record, and distinct names for the others.
    cases i with
    | zero => exact List.nodup_singleton _
    | succ i =>
      rw [decl, List.map_map]
      exact List.nodup_range.map name_injective
  · -- No field has a key.
    rw [List.filterMap_eq_nil_iff.2 fun f hf => (mem_fields_decl hf).2.1]
    exact List.nodup_nil
  · intro f g hprecedes
    have hadded {f : FieldDecl} (hf : f ∈ (decl width i).fields) : f.added = 0 :=
      (mem_fields_decl hf).1
    -- Every field is there from version 0, whichever way the two are ordered.
    cases hprecedes with
    | keyed hf hg _ => exact (hadded hf).trans (hadded hg).symm ▸ UInt32.le_refl _
    | declared _ _ h =>
      have hf := hadded (h.subset List.mem_cons_self)
      have hg := hadded (h.subset (List.mem_cons_of_mem f List.mem_cons_self))
      exact hf.trans hg.symm ▸ UInt32.le_refl _
  · intro f hf hlength
    rw [(mem_fields_decl hf).2.2.1] at hlength
    cases hlength

theorem record?_schema (width height i : Nat) :
    (schema width height).record? (name i) = if i ≤ height then some (decl width i) else none := by
  have hfind (i j : Nat) : [decl width j].find? (·.name = name i) =
      if i = j then some (decl width i) else none := by
    rw [List.find?_singleton, name_decl]
    by_cases h : i = j
    · simp [h]
    · simp [h, name_injective.ne (Ne.symm h)]
  unfold Schema.record?
  -- A storey adds one record, with a name that those below do not have.
  induction height with
  | zero => simp only [schema, hfind, Nat.le_zero]
  | succ height ih =>
    rw [schema, List.find?_append, ih, hfind]
    by_cases hle : i ≤ height
    · simp [hle, Nat.le_succ_of_le hle]
    · by_cases heq : i = height + 1
      · simp [heq]
      · simp [hle, heq, show ¬i ≤ height + 1 by omega]

theorem declared_schema (width height : Nat) : (schema width height).Declared := by
  induction height with
  | zero => exact Schema.Declared.empty.append_record (check_decl width 0) rfl
  | succ height ih =>
    refine ih.append_record (check_decl width (height + 1)) ?_
    rw [name_decl, record?_schema, if_neg (by omega)]

/-- A tower leads to nothing but its records and booleans. -/
theorem of_reaches {t : TypeExpr} (h : (schema width height).Reaches (root height) t) :
    t = root height ∨ t = .scalar .bool ∨ ∃ i ≤ height, t = .record (name i) := by
  -- Below the root there are only records of the tower and the booleans of the lowest one.
  induction h with
  | root => exact .inl rfl
  | nullable _ ih => simp [root] at ih
  | list _ ih =>
    obtain rfl : _ = TypeExpr.record (name height) := by simpa [root] using ih
    exact .inr (.inr ⟨height, Nat.le_refl _, rfl⟩)
  | @field n d f _ hd hf ih =>
    obtain ⟨i, hi, rfl⟩ : ∃ i ≤ height, n = name i := by simpa [root] using ih
    rw [record?_schema, if_pos hi] at hd
    cases hd
    obtain ⟨-, -, -, hbool | ⟨j, rfl, hrecord⟩⟩ := mem_fields_decl hf
    · exact .inr (.inl hbool)
    · exact .inr (.inr ⟨j, by omega, hrecord⟩)
  | member _ _ _ ih => simp [root] at ih

/-- A tower that is not empty leads to all of its records. -/
theorem reaches_record (hwidth : 0 < width) (h : i ≤ height) :
    (schema width height).Reaches (root height) (.record (name i)) := by
  -- Downwards from the top, always into the first field.
  induction h using Nat.decreasingInduction with
  | self => exact Schema.Reaches.root.list
  | @of_succ i hi ih =>
    have hfield : (⟨name 0, .record (name i), 0, none, false⟩ : FieldDecl) ∈
        (decl width (i + 1)).fields :=
      List.mem_map.2 ⟨0, List.mem_range.2 hwidth, rfl⟩
    refine ih.field ?_ hfield
    rw [record?_schema, if_pos (Nat.succ_le_of_lt hi)]

/-- **Nothing is missing for towers**, however high they are. -/
theorem complete (width height : Nat) (tagEncoding : TagEncoding) :
    (schema width height).Complete tagEncoding (root height) := by
  refine ⟨fun n hn => ?_, fun group hgroup => ?_⟩
  · obtain ⟨i, hi, rfl⟩ : ∃ i ≤ height, n = name i := by simpa [root] using of_reaches hn
    exact ⟨decl width i, by rw [record?_schema, if_pos hi]⟩
  · simpa [root] using of_reaches hgroup

theorem exists_layout (width height : Nat) (tagEncoding : TagEncoding) :
    ∃ a, (schema width height).layout tagEncoding (root height) = .ok a :=
  (Schema.exists_layout_iff_complete (declared_schema width height)).2 (complete width height _)

/-- In a layout of towers every record has the fields that have been declared. -/
theorem laysFields {tagEncoding : TagEncoding} {a : Layout} (hwidth : 0 < width)
    (h : (schema width height).Resolves tagEncoding (root height) a) (hi : i ≤ height) :
    List.Forall₂ ((schema width height).LaysField tagEncoding) (decl width i).fields
      (a.fieldsOf (name i)) := by
  obtain ⟨fields, hnode⟩ := h.spelled_iff.2 (reaches_record hwidth hi)
  obtain ⟨d, hd, hfields⟩ := h.spells _ _ (Layout.record_fieldsOf_mem_nodes hnode).1
  rw [record?_schema, if_pos hi] at hd
  cases hd
  rwa [wireFields_decl] at hfields

/-- A record of a tower has as many times the size of its fields as there are fields, since all of
them are on the wire at every version. -/
theorem hasSize_of_fields {tagEncoding : TagEncoding} {a : Layout} {size : Nat} {version : Version}
    {format : WireFormat} (hfields : List.Forall₂ ((schema width height).LaysField tagEncoding)
      (decl width i).fields (a.fieldsOf (name i)))
    (hsize : ∀ f ∈ a.fieldsOf (name i),
      (Program.ofLayout a version format tagEncoding).HasSize f.layout size) :
    (Program.ofLayout a version format tagEncoding).HasSize (.reference (name i))
      ((decl width i).fields.length * size) := by
  have hpresent : (Program.ofLayout a version format tagEncoding).present (name i) =
      a.fieldsOf (name i) := by
    -- All fields are there at every version, so all of them are on the wire.
    refine List.filter_eq_self.2 fun f hf => ?_
    obtain ⟨g, hg, -, hadded, -⟩ := exists_mem_of_forall₂_right hfields hf
    rw [hadded, (mem_fields_decl hg).1]
    exact decide_eq_true UInt32.zero_le
  have hrecord := Program.HasSize.record (p := .ofLayout a version format tagEncoding)
    (a := .reference (name i)) (fun _ => size) rfl (hpresent ▸ hsize)
  rwa [hpresent, List.map_const', List.sum_replicate_nat, ← hfields.length_eq] at hrecord

/-- **The size of a tower**, by induction on its height. -/
theorem hasSize {tagEncoding : TagEncoding} {a : Layout} (hwidth : 0 < width)
    (h : (schema width height).Resolves tagEncoding (root height) a) (version : Version)
    (format : WireFormat) (hi : i ≤ height) :
    (Program.ofLayout a version format tagEncoding).HasSize (.reference (name i)) (width ^ i) := by
  have hfields := laysFields hwidth h hi
  -- Each storey multiplies the size of the one below by the number of its fields.
  induction i with
  | zero =>
    have hbool : ∀ f ∈ a.fieldsOf (name 0),
        (Program.ofLayout a version format tagEncoding).HasSize f.layout 1 := by
      intro f hf
      obtain ⟨g, hg, -, -, hlays⟩ := exists_mem_of_forall₂_right hfields hf
      obtain rfl := List.mem_singleton.1 hg
      generalize f.layout = b at hlays
      cases hlays
      exact .plain rfl
    exact hasSize_of_fields hfields hbool
  | succ i ih =>
    have hbelow := ih (Nat.le_of_succ_le hi) (laysFields hwidth h (Nat.le_of_succ_le hi))
    have hrecord : ∀ f ∈ a.fieldsOf (name (i + 1)),
        (Program.ofLayout a version format tagEncoding).HasSize f.layout (width ^ i) := by
      intro f hf
      obtain ⟨g, hg, -, -, hlays⟩ := exists_mem_of_forall₂_right hfields hf
      obtain ⟨j, -, rfl⟩ := List.mem_map.1 hg
      cases hlays with
      | record hname => exact hbelow.of_recordName? rfl hname
    have hsum := hasSize_of_fields hfields hrecord
    rwa [decl, List.length_map, List.length_range, ← Nat.pow_succ'] at hsum

/-- The members of all lists in a layout of towers are towers. -/
theorem minSize_of_list_mem {tagEncoding : TagEncoding} {a member : Layout} (hwidth : 0 < width)
    (h : (schema width height).Resolves tagEncoding (root height) a)
    (hmember : .list member ∈ a.nodes) (version : Version) (format : WireFormat) :
    (Program.ofLayout a version format tagEncoding).minSize member = width ^ height := by
  obtain ⟨q, hq⟩ | ⟨varLength, t, ht, hlays⟩ := h.stands hmember
  · cases hq
  · -- The list of towers is the only list that there is.
    obtain rfl | rfl | ⟨i, -, rfl⟩ := of_reaches ht
    · cases hlays with
      | list hlays =>
        cases hlays with
        | record hname =>
          have hsize := hasSize hwidth h version format (Nat.le_refl height)
          exact Program.minSize_eq (hsize.of_recordName? rfl hname)
    · cases hlays
    · cases hlays with
      | record hname => cases hname

/-- **A list of towers can be measured in words** as long as the towers are not too high. -/
theorem sizesFit_iff {tagEncoding : TagEncoding} {a : Layout} (hwidth : 0 < width)
    (h : (schema width height).Resolves tagEncoding (root height) a) (level : Level) :
    a.SizesFit level tagEncoding ↔ width ^ height < 2 ^ 64 := by
  have hsize {member : Layout} (hmember : .list member ∈ a.nodes) (version : Version) :=
    minSize_of_list_mem hwidth h hmember version level.format
  -- Nothing but the list at the root asks for a size, and it asks for that of the top.
  constructor
  · intro hfits
    have hlays := h.lays
    cases hlays with
    | list _ =>
      rw [← hsize (Layout.mem_nodes_self _) 0]
      exact hfits 0 _ (.root (.self _))
  · intro hfits version member hmember
    rwa [hsize hmember.mem_nodes]

end Tower

end SchemaWire

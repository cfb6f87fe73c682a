import Mathlib.Data.List.Basic
import SchemaWire.Program.Encoding
import SchemaWire.Program.Decoding
import SchemaWire.Proofs.Layout.Nodes
/-!
# What a program looks up

A program finds the fields of a record in its table, by name. The names that it can come upon are
those that are mentioned in its root and, from there, in the fields of the records that are found
(`Program.LooksUp`).

Its version and its table come into writing and reading in three places only: the fields of a record
that are on the wire, those that are not, and the least sizes of list members. A program that
answers alike in these three places, as far as the other one asks (`Program.Mirrors`), writes the
same steps and reads the same values, and it fails in the same way (`Program.Mirrors.script_eq`,
`Program.Mirrors.decode_eq`).
-/

namespace SchemaWire

namespace Program

variable {p q : Program} {name : TypeName} {a : Layout}

/-- **The records that are looked up**, when a program is made and when it is used. -/
inductive LooksUp (p : Program) : TypeName → Prop
  | root {b : Layout} {name : TypeName} (hb : b ∈ p.root.nodes) (h : b.recordName? = some name) :
      LooksUp p name
  /-- A record that has been found leads to those in its fields. -/
  | field {name other : TypeName} {fields : List (Field Layout)} {f : Field Layout} {b : Layout}
      (hname : LooksUp p name) (hfields : p.records.lookup name = some fields) (hf : f ∈ fields)
      (hb : b ∈ f.layout.nodes) (h : b.recordName? = some other) : LooksUp p other

/-- Every record that a layout mentions is looked up. -/
def LooksUpAll (p : Program) (a : Layout) : Prop :=
  ∀ b ∈ a.nodes, ∀ name, b.recordName? = some name → p.LooksUp name

theorem looksUpAll_root (p : Program) : p.LooksUpAll p.root := fun _ hb _ h => .root hb h

theorem LooksUpAll.of_part {b : Layout} (h : p.LooksUpAll a) (hb : b ∈ a.parts) :
    p.LooksUpAll b :=
  fun c hc => h c (Layout.mem_nodes_of_part hb hc)

theorem LooksUpAll.self (h : p.LooksUpAll a) (ha : a.recordName? = some name) : p.LooksUp name :=
  h a a.mem_nodes_self name ha

/-- The fields of a record that is looked up mention what is looked up. -/
theorem LooksUp.of_mem_present (h : p.LooksUp name) {f : Field Layout} (hf : f ∈ p.present name) :
    p.LooksUpAll f.layout := by
  obtain ⟨hf, -⟩ := mem_present.1 hf
  unfold fieldsOf at hf
  -- A name without an entry has no fields at all.
  cases hlookup : p.records.lookup name with
  | none =>
    rw [hlookup] at hf
    cases hf
  | some fields =>
    rw [hlookup] at hf
    exact fun b hb other hother => .field h hlookup hf hb hother

/-- **A program mirrors another one** if it answers as the other one does, whatever that one asks.
-/
structure Mirrors (q p : Program) : Prop where
  root : q.root = p.root
  format : q.format = p.format
  tagEncoding : q.tagEncoding = p.tagEncoding
  fieldsOf : ∀ name, p.LooksUp name → q.fieldsOf name = p.fieldsOf name
  present : ∀ name, p.LooksUp name → q.present name = p.present name
  omitted : ∀ name, p.LooksUp name → q.omitted name = p.omitted name
  minSize : ∀ a, p.LooksUpAll a → q.minSize a = p.minSize a

/-! ### Least sizes -/

section Sizes

variable {record record' : TypeName → SizeMemo Nat → Nat × SizeMemo Nat}
  (hformat : q.format = p.format) (htag : q.tagEncoding = p.tagEncoding)
include hformat htag

theorem layoutSize_congr (h : ∀ name, a.recordName? = some name → record' name = record name)
    (memo : SizeMemo Nat) : q.layoutSize record' a memo = p.layoutSize record a memo := by
  cases a with
  | primitive _ | text | nullable _ | list _ | subtypes _ _ =>
    simp only [layoutSize, plainSize, hformat, htag]
  | record name _ | reference name => exact congrFun (h name rfl) memo

theorem fieldsSize_congr {fields : List (Field Layout)}
    (h : ∀ f ∈ fields, ∀ name, f.layout.recordName? = some name → record' name = record name)
    (memo : SizeMemo Nat) : q.fieldsSize record' fields memo = p.fieldsSize record fields memo := by
  induction fields generalizing memo with
  | nil => rfl
  | cons f fields ih =>
    obtain ⟨hf, hfields⟩ := List.forall_mem_cons.1 h
    rw [fieldsSize, fieldsSize, layoutSize_congr hformat htag hf, ih hfields]

/-- Only the fields on the wire are measured. -/
theorem recordSize_congr (hpresent : ∀ name, q.present name = p.present name) (fuel : Nat)
    (opened : List TypeName) (name : TypeName) :
    (q.recordSize fuel opened name : SizeMemo Nat → Nat × SizeMemo Nat) =
      p.recordSize fuel opened name := by
  -- By induction on the fuel; what is opened on the way is the same, since the same fields are on
  -- the wire.
  induction fuel generalizing opened name with
  | zero =>
    funext memo
    rw [recordSize, recordSize]
  | succ fuel ih =>
    funext memo
    have hfields (f : Field Layout) (_ : f ∈ p.present name) (other : TypeName)
        (_ : f.layout.recordName? = some other) :
        (q.recordSize fuel (name :: opened) other : SizeMemo Nat → Nat × SizeMemo Nat) =
          p.recordSize fuel (name :: opened) other :=
      ih (name :: opened) other
    rw [recordSize, recordSize, hpresent, fieldsSize_congr hformat htag hfields]

theorem minSize_congr (hpresent : ∀ name, q.present name = p.present name)
    (hlength : q.records.length = p.records.length) (a : Layout) : q.minSize a = p.minSize a := by
  have hrecord := recordSize_congr hformat htag hpresent (p.records.length + 1) []
  rw [minSize, minSize, foundSize, foundSize, hlength,
    layoutSize_congr hformat htag fun name _ => hrecord name]

end Sizes

namespace Mirrors

theorem countLimit_eq (h : q.Mirrors p) (ha : p.LooksUpAll a) (remaining : Nat) :
    q.countLimit a remaining = p.countLimit a remaining := by
  rw [countLimit, countLimit, h.minSize a ha]

theorem packed?_eq (h : q.Mirrors p) (inner : Layout) : q.packed? inner = p.packed? inner := by
  unfold packed?
  rw [h.format]

/-! ### Writing -/

section Scripts

variable {call call' : TypeName → Value → Script}

theorem memberScript?_eq (h : q.Mirrors p) {members : List (Member Layout)}
    (hmembers : ∀ m ∈ members, ∀ v,
      q.layoutScript call' m.layout v = p.layoutScript call m.layout v)
    (type : TypeName) (v : Value) :
    q.memberScript? call' members type v = p.memberScript? call members type v := by
  induction members with
  | nil => rfl
  | cons m members ih =>
    obtain ⟨hm, hmembers⟩ := List.forall_mem_cons.1 hmembers
    rw [memberScript?, memberScript?, ih hmembers, hm v, tagStep, tagStep, h.tagEncoding]

/-- Between two records the same steps are taken, if the records in between are written alike. -/
theorem layoutScript_eq (h : q.Mirrors p) (ha : p.LooksUpAll a)
    (hcall : ∀ name, p.LooksUp name → call' name = call name) (v : Value) :
    q.layoutScript call' a v = p.layoutScript call a v := by
  -- By induction on the layout. Names in it are looked up, so both programs agree on them.
  induction a generalizing v with
  | primitive _ => rw [layoutScript, layoutScript, h.format]
  | text => rfl
  | nullable inner ih =>
    rw [layoutScript, layoutScript, h.packed?_eq, ih (ha.of_part List.mem_cons_self)]
  | list member ih =>
    have hmember := ha.of_part (b := member) List.mem_cons_self
    have hcalls := funext (ih hmember)
    simp only [layoutScript, h.minSize member hmember, hcalls]
  | record name fields | reference name => exact congrFun (hcall name (ha.self rfl)) v
  | subtypes group members ih =>
    have hmembers := h.memberScript?_eq fun m hm =>
      ih m hm (ha.of_part (Layout.member_mem_parts hm))
    simp only [layoutScript, hmembers]

theorem bodyScript_eq (h : q.Mirrors p) (hname : p.LooksUp name)
    (hcall : ∀ name, p.LooksUp name → call' name = call name) (v : Value) :
    q.bodyScript call' name v = p.bodyScript call name v := by
  cases v with
  | record type fields =>
    rw [bodyScript, bodyScript, h.fieldsOf name hname, h.present name hname]
    -- The first undeclared field is the same as well, so the records are refused for the same
    -- field.
    by_cases htype : type = name
    · rw [if_pos htype, if_pos htype]
      cases fields.find? fun x => !(p.fieldsOf name).any (·.name = x.1) with
      | some x => rfl
      | none =>
        refine List.flatMap_congr ?_
        intro f hf
        cases FieldMap.find? fields f.name with
        | some x => exact h.layoutScript_eq (hname.of_mem_present hf) hcall x
        | none => rfl
    · rw [if_neg htype, if_neg htype]
  | scalar _ | wrapped _ | text _ | null | list _ => rfl

/-- **Records are written alike**, by induction on how many may be nested in them. -/
theorem recordScript_eq (h : q.Mirrors p) (room : Nat) (hname : p.LooksUp name) :
    q.recordScript room name = p.recordScript room name := by
  induction room generalizing name with
  | zero => rfl
  | succ room ih =>
    funext v
    rw [recordScript, recordScript, h.bodyScript_eq hname fun _ hother => ih hother]

theorem script_eq (h : q.Mirrors p) (room : Nat) (v : Value) :
    q.script room v = p.script room v := by
  rw [script, script, h.root]
  exact h.layoutScript_eq p.looksUpAll_root (fun _ hname => h.recordScript_eq room hname) v

end Scripts

/-! ### Reading -/

section Decoders

variable {call call' : TypeName → Decoder Value}

theorem decodeMember?_eq {members : List (Member Layout)}
    (h : ∀ m ∈ members, q.decodeLayout call' m.layout = p.decodeLayout call m.layout)
    (tag : UInt32) : q.decodeMember? call' members tag = p.decodeMember? call members tag := by
  induction members with
  | nil => rfl
  | cons m members ih =>
    obtain ⟨hm, hmembers⟩ := List.forall_mem_cons.1 h
    rw [decodeMember?, decodeMember?, ih hmembers, hm]

/-- Between two records the same is read, if the records in between are read alike. -/
theorem decodeLayout_eq (h : q.Mirrors p) (ha : p.LooksUpAll a)
    (hcall : ∀ name, p.LooksUp name → call' name = call name) :
    q.decodeLayout call' a = p.decodeLayout call a := by
  -- The limit of a list is computed from the least size of its member, which is the same.
  induction a with
  | primitive _ => rw [decodeLayout, decodeLayout, h.format]
  | text => rfl
  | nullable inner ih =>
    rw [decodeLayout, decodeLayout, h.packed?_eq, ih (ha.of_part List.mem_cons_self)]
  | list member ih =>
    have hmember := ha.of_part (b := member) List.mem_cons_self
    simp only [decodeLayout, ih hmember, h.countLimit_eq hmember]
  | record name fields | reference name => exact hcall name (ha.self rfl)
  | subtypes group members ih =>
    have hmembers := decodeMember?_eq fun m hm =>
      ih m hm (ha.of_part (Layout.member_mem_parts hm))
    simp only [decodeLayout, hmembers, readTag, h.tagEncoding]

theorem decodeFields_eq {fields : List (Field Layout)}
    (h : ∀ f ∈ fields, q.decodeLayout call' f.layout = p.decodeLayout call f.layout)
    (done : FieldMap Value) :
    q.decodeFields call' fields done = p.decodeFields call fields done := by
  induction fields generalizing done with
  | nil => rfl
  | cons f fields ih =>
    obtain ⟨hf, hfields⟩ := List.forall_mem_cons.1 h
    rw [decodeFields, decodeFields, hf]
    exact congrArg _ (funext fun v => ih hfields _)

theorem decodeBody_eq (h : q.Mirrors p) (hname : p.LooksUp name)
    (hcall : ∀ name, p.LooksUp name → call' name = call name) :
    q.decodeBody call' name = p.decodeBody call name := by
  have hlayout (f : Field Layout) (hf : f ∈ p.present name) :
      q.decodeLayout call' f.layout = p.decodeLayout call f.layout :=
    h.decodeLayout_eq (hname.of_mem_present hf) hcall
  unfold decodeBody withDefaults
  rw [h.present name hname, h.omitted name hname, decodeFields_eq hlayout]

/-- **Records are read alike**, by induction on how many may be nested in them. -/
theorem decodeRecord_eq (h : q.Mirrors p) (room : Nat) (hname : p.LooksUp name) :
    q.decodeRecord room name = p.decodeRecord room name := by
  induction room generalizing name with
  | zero => rfl
  | succ room ih =>
    rw [decodeRecord, decodeRecord, h.decodeBody_eq hname fun _ hother => ih hother]

theorem decode_eq (h : q.Mirrors p) : q.decode = p.decode := by
  funext r
  rw [decode, decode, h.root]
  refine congrFun (h.decodeLayout_eq p.looksUpAll_root ?_) r
  intro name hname
  exact h.decodeRecord_eq _ hname

end Decoders

end Mirrors

end Program

end SchemaWire

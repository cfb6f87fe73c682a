import SchemaWire.Proofs.Layout.Primitive
import SchemaWire.Proofs.Layout.Snapshot
import SchemaWire.Proofs.Lists
/-!
# When the script of a value is valid

Node by node, what a value has to be for its script to be valid, and what the script is then. A
program is only ever looked at through these statements: for each kind of layout one lemma takes a
valid script apart (`valid_textScript_iff`, `valid_list_iff`, `valid_subtypes_iff`,
`valid_bodyScript_iff`, …), so the results on round trips, conformance and sizes are case analyses
over them.

A group is asked by type when a value is written and by tag when it is read, and of several members
the last one answers. In a proper layout types and tags are different, so the member that answers is
the only one (`memberScript?_of_mem`, `decodeMember?_of_mem`). Two groups are compared member by
member (`optionRel_memberScript?`, `optionRel_decodeMember?`).
-/

namespace SchemaWire

namespace Program

variable {p : Program} {call : TypeName → Value → Script} {readCall : TypeName → Decoder Value}
  {v : Value}

/-! ### Texts -/

theorem valid_textScript_iff :
    (textScript v).Valid ↔ ∃ s, v = .text s ∧ s.toUTF8.size < 2 ^ 32 := by
  cases v with
  | text s => simp [textScript, Step.Valid]
  | _ => simp [textScript, Step.Valid]

/-! ### Nullables -/

/-- A nullable is packed only around a boolean, and the packed form keeps its boxing. -/
theorem packed?_eq_some {inner : Layout} {wrapped : Bool} (h : p.packed? inner = some wrapped) :
    ∃ q, inner = .primitive q ∧ q.kind = .bool ∧ q.wrapped = wrapped := by
  -- Only a boolean primitive is packed, in a format that packs.
  cases inner with
  | primitive q =>
    simp only [packed?] at h
    split at h
    · next hcond =>
      cases h
      exact ⟨q, rfl, of_decide_eq_true (Bool.and_eq_true_iff.1 hcond).2, rfl⟩
    · cases h
  | _ => cases h

theorem isNull_iff : v.isNull = true ↔ v = .null ∨ v = .wrapped none := by
  cases v with
  | wrapped box => cases box <;> simp [Value.isNull]
  | _ => simp [Value.isNull]

theorem packedScript_of_isNull (h : v.isNull = true) (wrapped : Bool) :
    packedScript wrapped v = [.raw [0]] := by
  rcases isNull_iff.1 h with rfl | rfl <;> rfl

theorem packedScript_box {q : Primitive} {b : Bool} :
    packedScript q.wrapped (q.box ⟨.bool, b⟩) = [.raw [if b then 2 else 1]] := by
  unfold Primitive.box
  cases q.wrapped <;> rfl

/-- **Packing changes nothing about what is accepted**: a null, or a boolean in its boxing. -/
theorem valid_packedScript_iff {q : Primitive} (hkind : q.kind = .bool) :
    (packedScript q.wrapped v).Valid ↔
      v.isNull = true ∨ ∃ s : Scalar, v = q.box s ∧ s.kind = q.kind := by
  constructor
  · intro h
    -- The cases of the packed script: null twice, the two booleans, and everything else.
    unfold packedScript at h
    split at h
    · exact .inl rfl
    · exact .inl rfl
    · next b hw => exact .inr ⟨⟨.bool, b⟩, by simp [Primitive.box, hw], hkind.symm⟩
    · next b hw => exact .inr ⟨⟨.bool, b⟩, by simp [Primitive.box, hw], hkind.symm⟩
    · exact absurd h Script.not_valid_fail
  · rintro (h | ⟨⟨k, b⟩, rfl, hs⟩)
    · rw [packedScript_of_isNull h]
      simp [Step.Valid]
    · obtain rfl : k = .bool := hs.trans hkind
      rw [packedScript_box]
      simp [Step.Valid]

/-- A nullable that is not packed writes one byte for a null. -/
theorem layoutScript_nullable_of_isNull {inner : Layout} (hpacked : p.packed? inner = none)
    (h : v.isNull = true) : p.layoutScript call (.nullable inner) v = [.raw [0]] := by
  simp [layoutScript, hpacked, h]

/-- A nullable that is not packed writes one byte in front of what it holds. -/
theorem layoutScript_nullable_of_not_isNull {inner : Layout} (hpacked : p.packed? inner = none)
    (h : ¬v.isNull = true) :
    p.layoutScript call (.nullable inner) v = .raw [1] :: p.layoutScript call inner v := by
  simp [layoutScript, hpacked, h]

/-- A nullable that is packed writes one byte. -/
theorem layoutScript_nullable_of_packed {inner : Layout} {wrapped : Bool}
    (hpacked : p.packed? inner = some wrapped) :
    p.layoutScript call (.nullable inner) v = packedScript wrapped v := by
  simp only [layoutScript, hpacked]

/-- **A nullable accepts nulls**, and what it holds accepts the rest. -/
theorem valid_nullable_iff {inner : Layout} :
    (p.layoutScript call (.nullable inner) v).Valid ↔
      v.isNull = true ∨ (p.layoutScript call inner v).Valid := by
  -- A packed boolean has its null among its own bytes; any other layout is preceded by a presence
  -- byte.
  cases hpacked : p.packed? inner with
  | some wrapped =>
    obtain ⟨q, rfl, hkind, rfl⟩ := packed?_eq_some hpacked
    rw [layoutScript_nullable_of_packed hpacked, valid_packedScript_iff hkind]
    exact or_congr_right Primitive.valid_script_iff.symm
  | none =>
    by_cases hnull : v.isNull = true
    · rw [layoutScript_nullable_of_isNull hpacked hnull]
      simp [hnull, Step.Valid]
    · rw [layoutScript_nullable_of_not_isNull hpacked hnull, Script.valid_cons]
      simp [hnull, Step.Valid]

/-! ### Lists -/

/-- The count of a list is refused before it is written. -/
def TooLong (p : Program) (member : Layout) (count : Nat) : Prop :=
  maxEmptyMembers < count ∧ p.minSize member = 0

theorem layoutScript_list {member : Layout} {vs : List Value} (h : ¬p.TooLong member vs.length) :
    p.layoutScript call (.list member) (.list vs) =
      .length vs.length :: vs.flatMap (p.layoutScript call member) := by
  unfold TooLong at h
  simp [layoutScript, h]

theorem valid_list_iff {member : Layout} :
    (p.layoutScript call (.list member) v).Valid ↔
      ∃ vs, v = .list vs ∧ ¬p.TooLong member vs.length ∧ vs.length < 2 ^ 32 ∧
        ∀ x ∈ vs, (p.layoutScript call member x).Valid := by
  constructor
  · intro h
    -- Only a list has a script, and only if its count passes the limit.
    cases v with
    | list vs =>
      by_cases hcount : p.TooLong member vs.length
      · unfold TooLong at hcount
        rw [layoutScript, if_pos hcount] at h
        exact absurd h Script.not_valid_fail
      · rw [layoutScript_list hcount, Script.valid_cons, Script.valid_flatMap] at h
        exact ⟨vs, rfl, hcount, h.1, h.2⟩
    | _ =>
      simp only [layoutScript] at h
      exact absurd h Script.not_valid_fail
  · rintro ⟨vs, rfl, hcount, hlength, hmembers⟩
    rw [layoutScript_list hcount, Script.valid_cons, Script.valid_flatMap]
    exact ⟨hlength, hmembers⟩

/-! ### Groups -/

theorem memberScript?_eq_none_iff {members : List (Member Layout)} {type : TypeName} :
    p.memberScript? call members type v = none ↔ ∀ m ∈ members, m.type ≠ type := by
  induction members with
  | nil => simp [memberScript?]
  | cons m members ih =>
    rw [memberScript?, List.forall_mem_cons, ← ih]
    cases p.memberScript? call members type v <;> simp

/-- Whatever member answers, it writes its tag and then the value. -/
theorem exists_of_memberScript?_eq_some {members : List (Member Layout)} {type : TypeName}
    {script : Script} (h : p.memberScript? call members type v = some script) :
    ∃ m ∈ members, m.type = type ∧ script = p.tagStep m.tag :: p.layoutScript call m.layout v := by
  -- A member further on wins over the first one, as in the decoder.
  induction members with
  | nil => cases h
  | cons m members ih =>
    rw [memberScript?] at h
    cases hlater : p.memberScript? call members type v with
    | some later =>
      simp only [hlater] at h
      obtain ⟨m', hm', hrest⟩ := ih (hlater.trans h)
      exact ⟨m', List.mem_cons_of_mem _ hm', hrest⟩
    | none =>
      simp only [hlater] at h
      split at h
      · next htype => exact ⟨m, List.mem_cons_self, htype, (Option.some.inj h).symm⟩
      · cases h

/-- **Two groups answer alike** if the same members are asked for and write what is alike. -/
theorem optionRel_memberScript? {q : Program} {call' : TypeName → Value → Script} {v' : Value}
    {R : Script → Script → Prop} {type type' : TypeName} {members members' : List (Member Layout)}
    (h : List.Forall₂ (fun m m' => (m'.type = type' ↔ m.type = type) ∧
      R (p.tagStep m.tag :: p.layoutScript call m.layout v)
        (q.tagStep m'.tag :: q.layoutScript call' m'.layout v')) members members') :
    Option.Rel R (p.memberScript? call members type v)
      (q.memberScript? call' members' type' v') := by
  induction h with
  | nil => exact .none
  | cons hm _ hlater =>
    obtain ⟨htype, hscript⟩ := hm
    rw [memberScript?, memberScript?]
    -- Later members are asked first, on both sides.
    generalize p.memberScript? call _ type v = later at hlater ⊢
    generalize q.memberScript? call' _ type' v' = later' at hlater ⊢
    cases hlater with
    | some hlater => exact .some hlater
    | none =>
      simp only [htype]
      split
      · exact .some hscript
      · exact .none

/-- Among members of different types, each one answers to its own. -/
theorem memberScript?_of_mem {members : List (Member Layout)} (h : (members.map (·.type)).Nodup)
    {m : Member Layout} (hm : m ∈ members) :
    p.memberScript? call members m.type v =
      some (p.tagStep m.tag :: p.layoutScript call m.layout v) := by
  -- No other member is of this type, so none further on takes its place.
  induction members with
  | nil => cases hm
  | cons m' members ih =>
    rw [List.map_cons, List.nodup_cons] at h
    rw [memberScript?]
    rcases List.mem_cons.1 hm with rfl | hm
    · have hlater : p.memberScript? call members m.type v = none :=
        memberScript?_eq_none_iff.2 fun m' hm' e => h.1 (List.mem_map.2 ⟨m', hm', e⟩)
      simp [hlater]
    · rw [ih h.2 hm]

theorem decodeMember?_eq_none_iff {members : List (Member Layout)} {tag : UInt32} :
    p.decodeMember? readCall members tag = none ↔ ∀ m ∈ members, m.tag ≠ tag := by
  induction members with
  | nil => simp [decodeMember?]
  | cons m members ih =>
    rw [decodeMember?, List.forall_mem_cons, ← ih]
    cases p.decodeMember? readCall members tag <;> simp

/-- Whatever member answers to a tag, it is read in its own layout. -/
theorem exists_of_decodeMember?_eq_some {members : List (Member Layout)} {tag : UInt32}
    {d : Decoder Value} (h : p.decodeMember? readCall members tag = some d) :
    ∃ m ∈ members, m.tag = tag ∧ d = p.decodeLayout readCall m.layout := by
  -- The last member with the tag is the one that is read.
  induction members with
  | nil => cases h
  | cons m members ih =>
    rw [decodeMember?] at h
    cases hlater : p.decodeMember? readCall members tag with
    | some later =>
      simp only [hlater] at h
      obtain ⟨m', hm', hrest⟩ := ih (hlater.trans h)
      exact ⟨m', List.mem_cons_of_mem _ hm', hrest⟩
    | none =>
      simp only [hlater] at h
      split at h
      · next htag => exact ⟨m, List.mem_cons_self, htag, (Option.some.inj h).symm⟩
      · cases h

/-- **Two groups are read alike** if their tags are the same and their members are read alike. -/
theorem optionRel_decodeMember? {q : Program} {readCall' : TypeName → Decoder Value}
    {R : Decoder Value → Decoder Value → Prop} {members members' : List (Member Layout)}
    (h : List.Forall₂ (fun m m' => m'.tag = m.tag ∧
      R (p.decodeLayout readCall m.layout) (q.decodeLayout readCall' m'.layout)) members members')
    (tag : UInt32) :
    Option.Rel R (p.decodeMember? readCall members tag)
      (q.decodeMember? readCall' members' tag) := by
  -- The members go along in pairs, with the same tags: the same pair is selected on both sides.
  induction h with
  | nil => exact .none
  | cons hm _ hlater =>
    obtain ⟨htag, hread⟩ := hm
    rw [decodeMember?, decodeMember?]
    generalize p.decodeMember? readCall _ tag = later at hlater ⊢
    generalize q.decodeMember? readCall' _ tag = later' at hlater ⊢
    cases hlater with
    | some hlater => exact .some hlater
    | none =>
      simp only [htag]
      split
      · exact .some hread
      · exact .none

/-- Among members with different tags, each one answers to its own. -/
theorem decodeMember?_of_mem {members : List (Member Layout)} (h : (members.map (·.tag)).Nodup)
    {m : Member Layout} (hm : m ∈ members) :
    p.decodeMember? readCall members m.tag = some (p.decodeLayout readCall m.layout) := by
  -- No other member has this tag, so none further on takes its place.
  induction members with
  | nil => cases hm
  | cons m' members ih =>
    rw [List.map_cons, List.nodup_cons] at h
    rw [decodeMember?]
    rcases List.mem_cons.1 hm with rfl | hm
    · have hlater : p.decodeMember? readCall members m.tag = none :=
        decodeMember?_eq_none_iff.2 fun m' hm' e => h.1 (List.mem_map.2 ⟨m', hm', e⟩)
      simp [hlater]
    · rw [ih h.2 hm]

/-- A tag is that of a member or is refused. -/
theorem decodeMember?_eq_some_or_eq_none {members : List (Member Layout)}
    (h : (members.map (·.tag)).Nodup) (readCall : TypeName → Decoder Value) (tag : UInt32) :
    (∃ m ∈ members, m.tag = tag ∧
      p.decodeMember? readCall members tag = some (p.decodeLayout readCall m.layout)) ∨
        p.decodeMember? readCall members tag = none := by
  by_cases hmember : ∃ m ∈ members, m.tag = tag
  · obtain ⟨m, hm, rfl⟩ := hmember
    exact .inl ⟨m, hm, rfl, decodeMember?_of_mem h hm⟩
  · exact .inr (decodeMember?_eq_none_iff.2 fun m hm e => hmember ⟨m, hm, e⟩)

theorem valid_tagStep (tag : UInt32) : (p.tagStep tag).Valid := by
  unfold tagStep
  cases p.tagEncoding <;> exact trivial

/-- A member of a group writes its tag and then itself. -/
theorem layoutScript_subtypes {group : GroupName} {members : List (Member Layout)}
    (h : (members.map (·.type)).Nodup) {m : Member Layout} (hm : m ∈ members)
    (hv : v.runtimeType? = some m.type) :
    p.layoutScript call (.subtypes group members) v =
      p.tagStep m.tag :: p.layoutScript call m.layout v := by
  rw [layoutScript, hv]
  simp only [memberScript?_of_mem h hm]

/-- A group that accepts a value writes a tag in front of it. -/
theorem exists_of_valid_subtypes {group : GroupName} {members : List (Member Layout)}
    (h : (p.layoutScript call (.subtypes group members) v).Valid) :
    ∃ m ∈ members, p.layoutScript call (.subtypes group members) v =
      p.tagStep m.tag :: p.layoutScript call m.layout v := by
  rw [layoutScript] at h ⊢
  -- The type of the value has to be known, and it has to be that of a member.
  cases htype : v.runtimeType? with
  | none =>
    simp only [htype] at h
    exact absurd h Script.not_valid_fail
  | some type =>
    cases hmember : p.memberScript? call members type v with
    | none =>
      simp only [htype, hmember] at h
      exact absurd h Script.not_valid_fail
    | some script =>
      obtain ⟨m, hm, -, rfl⟩ := exists_of_memberScript?_eq_some hmember
      exact ⟨m, hm, by simp only [hmember]⟩

theorem valid_subtypes_iff {group : GroupName} {members : List (Member Layout)}
    (h : (members.map (·.type)).Nodup) :
    (p.layoutScript call (.subtypes group members) v).Valid ↔
      ∃ m ∈ members, v.runtimeType? = some m.type ∧ (p.layoutScript call m.layout v).Valid := by
  constructor
  · intro hvalid
    cases htype : v.runtimeType? with
    | none =>
      simp only [layoutScript, htype] at hvalid
      exact absurd hvalid Script.not_valid_fail
    | some type =>
      -- Types differ, so the member that answers is the one that was asked for.
      by_cases hmember : ∃ m ∈ members, m.type = type
      · obtain ⟨m, hm, rfl⟩ := hmember
        rw [layoutScript_subtypes h hm htype, Script.valid_cons] at hvalid
        exact ⟨m, hm, rfl, hvalid.2⟩
      · have hnone : p.memberScript? call members type v = none :=
          memberScript?_eq_none_iff.2 fun m hm e => hmember ⟨m, hm, e⟩
        simp only [layoutScript, htype, hnone] at hvalid
        exact absurd hvalid Script.not_valid_fail
  · rintro ⟨m, hm, htype, hvalid⟩
    rw [layoutScript_subtypes h hm htype, Script.valid_cons]
    exact ⟨valid_tagStep m.tag, hvalid⟩

/-! ### Records -/

/-- The steps for one field of a record that holds it. -/
theorem bodyScript_record {name : TypeName} {fields : FieldMap Value}
    (hdeclared : ∀ x ∈ fields, ∃ f ∈ p.fieldsOf name, f.name = x.1) :
    p.bodyScript call name (.record name fields) =
      (p.present name).flatMap fun f =>
        match fields.find? f.name with
        | some x => p.layoutScript call f.layout x
        | none => [.fail (.missingField name f.name)] := by
  -- The search for an undeclared field comes back empty.
  have hknown : (List.find? (fun x => !(p.fieldsOf name).any (·.name = x.1)) fields) = none := by
    rw [List.find?_eq_none]
    intro x hx
    obtain ⟨f, hf, hname⟩ := hdeclared x hx
    simpa using ⟨f, hf, hname⟩
  rw [bodyScript, if_pos rfl]
  split
  · next x hx =>
    rw [hknown] at hx
    cases hx
  · rfl

/-- A record with a field that is not declared is refused, whatever else it holds. -/
theorem bodyScript_of_undeclared (call : TypeName → Value → Script) {name : TypeName}
    {fields : FieldMap Value}
    (h : ¬∀ x ∈ fields, ∃ f ∈ p.fieldsOf name, f.name = x.1) :
    ∃ field, p.bodyScript call name (.record name fields) = [.fail (.unknownField name field)] := by
  rw [bodyScript, if_pos rfl]
  split
  · next x _ => exact ⟨x.1, rfl⟩
  · next hknown =>
    rw [List.find?_eq_none] at hknown
    refine absurd (fun x hx => ?_) h
    simpa using hknown x hx

theorem valid_bodyScript_iff {name : TypeName} :
    (p.bodyScript call name v).Valid ↔
      ∃ fields : FieldMap Value, v = .record name fields ∧
        (∀ x ∈ fields, ∃ f ∈ p.fieldsOf name, f.name = x.1) ∧
        ∀ f ∈ p.present name, ∃ x, fields.find? f.name = some x ∧
          (p.layoutScript call f.layout x).Valid := by
  constructor
  · intro h
    -- Only a record of this name has a script, and only if all of its fields are declared.
    cases v with
    | record type fields =>
      by_cases htype : type = name
      · subst htype
        by_cases hdeclared : ∀ x ∈ fields, ∃ f ∈ p.fieldsOf type, f.name = x.1
        · refine ⟨fields, rfl, hdeclared, fun f hf => ?_⟩
          rw [bodyScript_record hdeclared, Script.valid_flatMap] at h
          have hfield := h f hf
          split at hfield
          · next x hx => exact ⟨x, hx, hfield⟩
          · exact absurd hfield Script.not_valid_fail
        · obtain ⟨field, hscript⟩ := bodyScript_of_undeclared call hdeclared
          rw [hscript] at h
          exact absurd h Script.not_valid_fail
      · simp only [bodyScript, if_neg htype] at h
        exact absurd h Script.not_valid_fail
    | _ =>
      simp only [bodyScript] at h
      exact absurd h Script.not_valid_fail
  · rintro ⟨fields, rfl, hdeclared, hfields⟩
    rw [bodyScript_record hdeclared, Script.valid_flatMap]
    intro f hf
    obtain ⟨x, hx, hvalid⟩ := hfields f hf
    simpa only [hx] using hvalid

theorem valid_recordScript_succ_iff {room : Nat} {name : TypeName} :
    (p.recordScript (room + 1) name v).Valid ↔
      (p.bodyScript (p.recordScript room) name v).Valid := by
  simp [recordScript, Step.Valid]

theorem not_valid_recordScript_zero {name : TypeName} : ¬(p.recordScript 0 name v).Valid := by
  rw [recordScript]
  exact Script.not_valid_fail

theorem bytes_recordScript_succ {format : WireFormat} {room : Nat} {name : TypeName} :
    (p.recordScript (room + 1) name v).bytes format =
      (p.bodyScript (p.recordScript room) name v).bytes format := by
  simp [recordScript, Step.bytes]

/-- **What a record has to be**, spelled out or referred to: it uses up one level of nesting, holds
no undeclared field, and holds every field that is on the wire. -/
theorem exists_of_valid_record {a : Layout} {name : TypeName} (ha : a.recordName? = some name)
    {room : Nat} (h : (p.layoutScript (p.recordScript room) a v).Valid) :
    ∃ (inner : Nat) (fields : FieldMap Value), room = inner + 1 ∧ v = .record name fields ∧
      (∀ x ∈ fields, ∃ f ∈ p.fieldsOf name, f.name = x.1) ∧
      ∀ f ∈ p.present name, ∃ x, fields.find? f.name = some x ∧
        (p.layoutScript (p.recordScript inner) f.layout x).Valid := by
  rw [layoutScript_of_recordName? ha] at h
  -- A record takes one of the records that may still be opened.
  cases room with
  | zero => exact absurd h not_valid_recordScript_zero
  | succ inner =>
    obtain ⟨fields, rfl, hdeclared, hfields⟩ :=
      valid_bodyScript_iff.1 (valid_recordScript_succ_iff.1 h)
    exact ⟨inner, fields, rfl, rfl, hdeclared, hfields⟩

/-- What a record writes: its fields one after another, and nothing for itself. -/
theorem bytes_record {a : Layout} {name : TypeName} (ha : a.recordName? = some name) {inner : Nat}
    {fields : FieldMap Value} (hdeclared : ∀ x ∈ fields, ∃ f ∈ p.fieldsOf name, f.name = x.1)
    (hfields : ∀ f ∈ p.present name, ∃ x, fields.find? f.name = some x) (format : WireFormat) :
    (p.layoutScript (p.recordScript (inner + 1)) a (.record name fields)).bytes format =
      (p.present name).flatMap fun f =>
        (p.layoutScript (p.recordScript inner) f.layout
          ((fields.find? f.name).getD f.layout.default)).bytes format := by
  rw [layoutScript_of_recordName? ha, bytes_recordScript_succ, bodyScript_record hdeclared,
    Script.bytes_flatMap]
  refine List.flatMap_congr fun f hf => ?_
  obtain ⟨x, hx⟩ := hfields f hf
  simp only [hx, Option.getD_some]

end Program

end SchemaWire

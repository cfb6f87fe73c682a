import SchemaWire.Proofs.Layout.Nodes
import SchemaWire.Proofs.Program.Conformance
import SchemaWire.Proofs.Program.Consumption
/-!
# Where the least size is attained

The least size of a layout is a lower bound, and most layouts have a value that takes no more: zero,
an empty text or list, a null. A group is the exception. It is measured by its tag alone, but with
the tag comes a member, so a group attains its least size only through a member without bytes, under
a tag that is as short as tags can be. A record attains its least size if all of its fields do.

* `Program.Tight` says this without values, by recursion through the fields on the wire, and
  `Program.exists_attains_iff` — **a layout of a proper program attains its least size exactly if it
  is tight.**
* `Program.countLimit_exact_iff` — the bound on the count of a list is the number of members for
  which there is room exactly if the least size of a member is attained.
-/

namespace SchemaWire

/-! ### Scalars -/

/-- Zero takes the least size of its primitive, be it a varint or not. -/
theorem Primitive.length_step_zero {q : Primitive} {format wire : WireFormat} :
    ((q.step format q.kind.zero).bytes wire).length = q.minSize format := by
  unfold step minSize
  split
  · have hword : q.kind.zero.toWord = 0 := by cases q.kind <;> rfl
    rw [hword]
    exact Varint.length_encode 0
  · exact ByteOrder.length_bytes _ _ _

namespace Program

variable {p : Program} {room : Nat} {a : Layout} {v : Value} {name : TypeName}

/-- The number of bytes that a value is written in. -/
def encodedLength (p : Program) (room : Nat) (a : Layout) (v : Value) : Nat :=
  ((p.layoutScript (p.recordScript room) a v).bytes p.format).length

/-- **A value attains the least size** of its layout. -/
structure Attains (p : Program) (room : Nat) (a : Layout) (v : Value) : Prop where
  valid : (p.layoutScript (p.recordScript room) a v).Valid
  length_eq : p.encodedLength room a v = p.minSize a

/-- A tag takes no more bytes than every tag does. -/
def ShortTag (p : Program) (tag : UInt32) : Prop := p.tagEncoding = .varint → tag < 128

/-- **A layout attains its least size**, where `room` records may be nested. -/
inductive Tight (p : Program) : Nat → Layout → Prop
  | primitive {room : Nat} (q : Primitive) : Tight p room (.primitive q)
  | text {room : Nat} : Tight p room .text
  | nullable {room : Nat} (inner : Layout) : Tight p room (.nullable inner)
  | list {room : Nat} (member : Layout) : Tight p room (.list member)
  /-- A record needs all of its fields. -/
  | record {room : Nat} {a : Layout} {name : TypeName} (ha : a.recordName? = some name)
      (fields : ∀ f ∈ p.present name, Tight p room f.layout) : Tight p (room + 1) a
  /-- A group needs a member that adds nothing to a short tag. -/
  | subtypes {room : Nat} {group : GroupName} {members : List (Member Layout)} {m : Member Layout}
      (hm : m ∈ members) (tag : p.ShortTag m.tag) (weightless : p.snapshot.Weightless m.type)
      (member : Tight p room m.layout) : Tight p room (.subtypes group members)

/-! ### Counts and tags -/

/-- The count of nothing is as short as counts are. -/
theorem length_count_zero :
    ((Step.length 0).bytes p.format).length = if p.format.varintLengths then 1 else 4 := by
  rw [Step.bytes]
  split
  · exact Varint.length_encode 0
  · exact ByteOrder.length_bytes _ _ _

theorem length_tagStep_eq_iff {tag : UInt32} {group : GroupName}
    {members : List (Member Layout)} :
    ((p.tagStep tag).bytes p.format).length = p.plainSize (.subtypes group members) ↔
      p.ShortTag tag := by
  unfold tagStep plainSize ShortTag
  cases p.tagEncoding with
  | u8 => simp [Step.bytes]
  | u16 => simp [Step.bytes]
  | varint =>
    -- A tag of one byte is one below 128, whatever encoding is used for more.
    have hnat : tag.toUInt64.toNat < 128 ^ 1 ↔ tag < 128 := by
      rw [UInt32.lt_iff_toNat_lt, UInt32.toNat_toUInt64]
      rfl
    have hsize : Varint.size tag.toUInt64 = 1 ↔ tag.toUInt64.toNat < 128 ^ 1 := by
      refine ⟨fun h => h ▸ Varint.lt_pow_size _, fun h => ?_⟩
      exact Nat.le_antisymm (Varint.size_le_of_lt_pow Nat.one_pos h) (Varint.size_pos _)
    simpa [Step.bytes] using hsize.trans hnat

/-! ### Records -/

/-- The least size of a record is that of its fields together. -/
theorem minSize_eq_sum (ha : a.recordName? = some name)
    (h : ∀ f ∈ p.present name, p.HasSize f.layout (p.minSize f.layout)) :
    p.minSize a = ((p.present name).map fun f => p.minSize f.layout).sum :=
  minSize_eq (.record p.minSize ha h)

/-- A record takes what its fields take. -/
theorem encodedLength_record {fields : FieldMap Value} (ha : a.recordName? = some name)
    (hdeclared : ∀ x ∈ fields, ∃ f ∈ p.fieldsOf name, f.name = x.1)
    (hfields : ∀ f ∈ p.present name, ∃ x, fields.find? f.name = some x) :
    p.encodedLength (room + 1) a (.record name fields) = ((p.present name).map fun f =>
      p.encodedLength room f.layout ((fields.find? f.name).getD f.layout.default)).sum := by
  rw [encodedLength, bytes_record ha hdeclared hfields, List.length_flatMap]
  rfl

/-- **A record attains its least size if its fields do.** -/
theorem attains_record (hp : p.Proper) (ha : a.recordName? = some name)
    {held : Field Layout → Value} (h : ∀ f ∈ p.present name, p.Attains room f.layout (held f)) :
    ∃ v, p.Attains (room + 1) a v := by
  -- The record holds, for each field on the wire, a value that is as short as possible.
  obtain ⟨fields, hmap⟩ : ∃ fields : FieldMap Value,
      fields = .ofList ((p.present name).map fun f => (f.name, held f)) := ⟨_, rfl⟩
  have hnames : (((p.present name).map fun f => (f.name, held f)).map (·.1)).Nodup := by
    rw [List.map_map]
    exact hp.nodup_present name
  have hfound : ∀ f ∈ p.present name, fields.find? f.name = some (held f) := fun f hf =>
    hmap ▸ (FieldMap.find?_ofList_eq_some_iff hnames).2 (List.mem_map.2 ⟨f, hf, rfl⟩)
  have hdeclared : ∀ x ∈ fields, ∃ f ∈ p.fieldsOf name, f.name = x.1 := by
    intro x hx
    obtain ⟨f, hf, rfl⟩ := List.mem_map.1 (FieldMap.mem_of_mem_ofList (hmap ▸ hx))
    exact ⟨f, (mem_present.1 hf).1, rfl⟩
  refine ⟨.record name fields, ?_, ?_⟩
  · -- It is valid since every field is.
    rw [layoutScript_of_recordName? ha, valid_recordScript_succ_iff, valid_bodyScript_iff]
    exact ⟨fields, rfl, hdeclared, fun f hf => ⟨held f, hfound f hf, (h f hf).valid⟩⟩
  · -- Its length is the sum of the lengths, and the least size is the sum of the least sizes.
    rw [encodedLength_record ha hdeclared fun f hf => ⟨held f, hfound f hf⟩,
      minSize_eq_sum ha fun f hf => hasSize_minSize (h f hf).valid]
    refine congrArg List.sum (List.map_congr_left fun f hf => ?_)
    rw [hfound f hf, Option.getD_some, (h f hf).length_eq]

/-- **If a record attains its least size, its fields do**: none of them makes up for another. -/
theorem exists_attains_of_record (ha : a.recordName? = some name) (h : p.Attains room a v) :
    ∃ inner, room = inner + 1 ∧ ∀ f ∈ p.present name, ∃ x, p.Attains inner f.layout x := by
  obtain ⟨inner, fields, rfl, rfl, hdeclared, hfields⟩ := exists_of_valid_record ha h.valid
  have hfound := fun f hf => (hfields f hf).imp fun _ hx => hx.1
  -- The record takes the sum of the least sizes, so each field takes its own.
  have hsum := h.length_eq
  rw [encodedLength_record ha hdeclared hfound, minSize_eq_sum ha fun f hf => by
    obtain ⟨x, -, hx⟩ := hfields f hf
    exact hasSize_minSize hx] at hsum
  have hle : ∀ f ∈ p.present name, p.minSize f.layout ≤
      p.encodedLength inner f.layout ((fields.find? f.name).getD f.layout.default) := by
    intro f hf
    obtain ⟨x, hx, hvalid⟩ := hfields f hf
    rw [hx]
    exact minSize_le_length hvalid
  refine ⟨inner, rfl, fun f hf => ?_⟩
  obtain ⟨x, hx, hvalid⟩ := hfields f hf
  refine ⟨x, hvalid, ?_⟩
  by_contra hne
  -- One field that takes more than its least size makes the record take more than its own.
  have hlt : p.minSize f.layout <
      p.encodedLength inner f.layout ((fields.find? f.name).getD f.layout.default) := by
    refine Nat.lt_of_le_of_ne (hle f hf) fun heq => hne ?_
    rw [heq, hx, Option.getD_some]
  exact absurd hsum (Nat.ne_of_gt (List.sum_lt_sum _ _ hle ⟨f, hf, hlt⟩))

/-! ### Groups -/

/-- What a group takes: a tag and a member. -/
theorem encodedLength_subtypes {group : GroupName} {members : List (Member Layout)}
    (htypes : (members.map (·.type)).Nodup) {m : Member Layout} (hm : m ∈ members)
    (htype : v.runtimeType? = some m.type) :
    p.encodedLength room (.subtypes group members) v =
      ((p.tagStep m.tag).bytes p.format).length + p.encodedLength room m.layout v := by
  rw [encodedLength, layoutScript_subtypes htypes hm htype, Script.bytes_cons, List.length_append]
  rfl

theorem minSize_subtypes {group : GroupName} {members : List (Member Layout)} :
    p.minSize (.subtypes group members) = p.plainSize (.subtypes group members) :=
  minSize_eq (.plain rfl)

/-- A group attains its least size through a member without bytes. -/
theorem attains_subtypes {group : GroupName} {members : List (Member Layout)}
    (ha : (Layout.subtypes group members).Proper p.tagEncoding) {m : Member Layout}
    (hm : m ∈ members) (htag : p.ShortTag m.tag) (hweightless : p.snapshot.Weightless m.type)
    (h : p.Attains room m.layout v) : p.Attains room (.subtypes group members) v := by
  obtain ⟨-, htypes, hmembers⟩ := ha
  have hname : m.layout.recordName? = some m.type := (hmembers m hm).2
  obtain ⟨inner, fields, -, rfl, -⟩ := exists_of_valid_record hname h.valid
  -- The member takes no bytes, so the tag is all there is.
  have hzero : p.encodedLength room m.layout (.record m.type fields) = 0 :=
    h.length_eq.trans (minSize_eq (hasSize_zero_of_weightless hweightless hname))
  refine ⟨(valid_subtypes_iff htypes).2 ⟨m, hm, rfl, h.valid⟩, ?_⟩
  rw [encodedLength_subtypes htypes hm rfl, hzero, Nat.add_zero, minSize_subtypes]
  exact length_tagStep_eq_iff.2 htag

/-- If a group attains its least size, it does so through a member without bytes, since the tag is
the least size already. -/
theorem exists_attains_of_subtypes {group : GroupName} {members : List (Member Layout)}
    (ha : (Layout.subtypes group members).Proper p.tagEncoding)
    (h : p.Attains room (.subtypes group members) v) :
    ∃ m ∈ members, p.ShortTag m.tag ∧ p.snapshot.Weightless m.type ∧
      p.Attains room m.layout v := by
  obtain ⟨-, htypes, hmembers⟩ := ha
  obtain ⟨m, hm, htype, hvalid⟩ := (valid_subtypes_iff htypes).1 h.valid
  have hlength := h.length_eq
  rw [encodedLength_subtypes htypes hm htype, minSize_subtypes] at hlength
  have htag : p.plainSize (.subtypes group members) ≤ ((p.tagStep m.tag).bytes p.format).length :=
    plainSize_subtypes_le m.tag
  have hmember : p.minSize m.layout ≤ p.encodedLength room m.layout v := minSize_le_length hvalid
  -- The least size of the group counts the tag only, so nothing is left for the member and for a
  -- longer tag.
  have hzero : p.minSize m.layout = 0 := by omega
  have hshort : ((p.tagStep m.tag).bytes p.format).length =
      p.plainSize (.subtypes group members) := by omega
  have hweightless : p.snapshot.WeightlessMember m.layout :=
    weightlessMember_of_hasSize (hzero ▸ hasSize_minSize hvalid)
  obtain ⟨name, hname, hweightless⟩ := hweightless
  cases hname.symm.trans (hmembers m hm).2
  exact ⟨m, hm, length_tagStep_eq_iff.1 hshort, hweightless, hvalid, by omega⟩

/-! ### Tight layouts are those that attain their least size -/

theorem Tight.exists_attains (hp : p.Proper) (ha : a.Proper p.tagEncoding) (h : p.Tight room a) :
    ∃ v, p.Attains room a v := by
  -- By induction on the tightness, which goes down to fields of records and to members without
  -- bytes.
  induction h with
  | primitive q =>
    have hscript : q.script p.format (q.box q.kind.zero) = [q.step p.format q.kind.zero] :=
      Primitive.script_box (ScalarKind.kind_zero _)
    refine ⟨q.box q.kind.zero, ?_, ?_⟩
    · exact Primitive.valid_script_iff.2 ⟨_, rfl, ScalarKind.kind_zero _⟩
    · rw [minSize_eq (.plain rfl)]
      change ((q.script p.format (q.box q.kind.zero)).bytes p.format).length = q.minSize p.format
      rw [hscript, Script.bytes_cons, Script.bytes_nil, List.append_nil]
      exact Primitive.length_step_zero
  | text =>
    refine ⟨.text "", valid_textScript_iff.2 ⟨"", rfl, by decide⟩, ?_⟩
    rw [minSize_eq (.plain rfl)]
    change ((Step.length 0).bytes p.format ++ []).length = _
    rw [List.append_nil, length_count_zero]
    rfl
  | nullable inner =>
    refine ⟨inner.nullValue, valid_nullable_iff.2 (.inl inner.isNull_nullValue), ?_⟩
    rw [minSize_eq (.plain rfl), encodedLength]
    cases hpacked : p.packed? inner with
    | some wrapped =>
      rw [layoutScript_nullable_of_packed hpacked, packedScript_of_isNull inner.isNull_nullValue]
      rfl
    | none =>
      rw [layoutScript_nullable_of_isNull hpacked inner.isNull_nullValue]
      rfl
  | list member =>
    have hcount : ¬p.TooLong member ([] : List Value).length := fun h => Nat.not_lt_zero _ h.1
    refine ⟨.list [], valid_list_iff.2 ⟨[], rfl, hcount, by decide, List.forall_mem_nil _⟩, ?_⟩
    rw [minSize_eq (.plain rfl), encodedLength, layoutScript_list hcount]
    change ((Step.length 0).bytes p.format ++ []).length = _
    rw [List.append_nil, length_count_zero]
    rfl
  | @record room a name hname _ ih =>
    have hfields := fun f hf => ih f hf (hp.present hf)
    choose! held hheld using hfields
    exact attains_record hp hname hheld
  | @subtypes room group members m hm htag hweightless _ ih =>
    have hmember : m.layout.Proper p.tagEncoding := by
      rcases Layout.recordName?_eq_some_iff.1 (ha.2.2 m hm).2 with h | ⟨fields, h⟩ <;>
        rw [h] <;> trivial
    obtain ⟨v, hv⟩ := ih hmember
    exact ⟨v, attains_subtypes ha hm htag hweightless hv⟩

/-- A record is tight if it attains its least size and this makes its fields tight. -/
theorem tight_of_record (hname : a.recordName? = some name) (h : p.Attains room a v)
    (ih : ∀ inner f x, room = inner + 1 → f ∈ p.present name → p.Attains inner f.layout x →
      p.Tight inner f.layout) : p.Tight room a := by
  obtain ⟨inner, rfl, hfields⟩ := exists_attains_of_record hname h
  refine .record hname fun f hf => ?_
  obtain ⟨x, hx⟩ := hfields f hf
  exact ih inner f x rfl hf hx

theorem tight_of_attains_of (ha : a.Proper p.tagEncoding) (h : p.Attains room a v)
    (ih : ∀ name inner f x, room = inner + 1 → f ∈ p.present name → p.Attains inner f.layout x →
      p.Tight inner f.layout) : p.Tight room a := by
  -- All but records and groups attain their least size by themselves.
  cases a with
  | primitive q => exact .primitive q
  | text => exact .text
  | nullable inner => exact .nullable inner
  | list member => exact .list member
  | record name fields => exact tight_of_record rfl h (ih name)
  | reference name => exact tight_of_record rfl h (ih name)
  | subtypes group members =>
    obtain ⟨m, hm, htag, hweightless, hmember⟩ := exists_attains_of_subtypes ha h
    exact .subtypes hm htag hweightless (tight_of_record (ha.2.2 m hm).2 hmember (ih m.type))

/-- By induction on the records that may be nested. -/
theorem tight_of_attains (hp : p.Proper) (ha : a.Proper p.tagEncoding) (h : p.Attains room a v) :
    p.Tight room a := by
  induction room generalizing a v with
  | zero => exact tight_of_attains_of ha h fun _ _ _ _ hroom => nomatch hroom
  | succ room ih =>
    refine tight_of_attains_of ha h fun name inner f x hroom hf hx => ?_
    cases hroom
    exact ih (hp.present hf) hx

/-- **The least size is attained exactly by tight layouts.** -/
theorem exists_attains_iff (hp : p.Proper) (ha : a.Proper p.tagEncoding) :
    (∃ v, p.Attains room a v) ↔ p.Tight room a :=
  ⟨fun ⟨_, h⟩ => tight_of_attains hp ha h, fun h => h.exists_attains hp ha⟩

/-! ### The bound on counts -/

/-- There are so many members that fit into some number of bytes. -/
def CanHold (p : Program) (room : Nat) (member : Layout) (remaining n : Nat) : Prop :=
  ∃ vs : List Value, vs.length = n ∧
    (∀ x ∈ vs, (p.layoutScript (p.recordScript room) member x).Valid) ∧
    (vs.map (p.encodedLength room member)).sum ≤ remaining

/-- Members that take so many bytes each take as many times as much together. -/
theorem mul_le_sum_encodedLength {member : Layout} {vs : List Value} {least : Nat}
    (h : ∀ x ∈ vs, least ≤ p.encodedLength room member x) :
    vs.length * least ≤ (vs.map (p.encodedLength room member)).sum := by
  have htotal := List.card_nsmul_le_sum (vs.map (p.encodedLength room member)) least
    fun size hsize => by
      obtain ⟨x, hx, rfl⟩ := List.mem_map.1 hsize
      exact h x hx
  rwa [List.length_map, Nat.nsmul_eq_mul] at htotal

/-- The bound on counts is the number of members of the least size that there is room for. -/
theorem le_countLimit_iff {member : Layout} {remaining n : Nat} (hpos : 0 < p.minSize member) :
    n ≤ p.countLimit member remaining ↔ n * p.minSize member ≤ remaining := by
  unfold countLimit
  simp only [if_neg (Nat.ne_of_gt hpos)]
  exact Nat.le_div_iff_mul_le hpos

/-- **The bound on counts is exact where the least size is attained**, and nowhere else: at the
latest where a single member of this size would have to fit, it is too high. -/
theorem countLimit_exact_iff {member : Layout} (hpos : 0 < p.minSize member) :
    (∀ remaining n, n ≤ p.countLimit member remaining ↔ p.CanHold room member remaining n) ↔
      ∃ v, p.Attains room member v := by
  simp only [le_countLimit_iff hpos]
  constructor
  · intro h
    -- Where there is room for one member of the least size, the bound is one.
    obtain ⟨vs, hlength, hvalid, hsum⟩ := (h (p.minSize member) 1).1 (Nat.one_mul _).le
    obtain ⟨v, rfl⟩ := List.length_eq_one_iff.1 hlength
    have hv := hvalid v List.mem_cons_self
    rw [List.map_cons, List.map_nil, List.sum_singleton] at hsum
    exact ⟨v, hv, Nat.le_antisymm hsum (minSize_le_length hv)⟩
  · rintro ⟨v, hv⟩ remaining n
    -- As many copies of a smallest member fit as the bound says, and nothing smaller exists.
    constructor
    · intro hle
      refine ⟨List.replicate n v, List.length_replicate, fun x hx => ?_, ?_⟩
      · rw [List.eq_of_mem_replicate hx]
        exact hv.valid
      · rwa [List.map_replicate, List.sum_replicate_nat, hv.length_eq]
    · rintro ⟨vs, rfl, hvalid, hsum⟩
      exact (mul_le_sum_encodedLength fun x hx => minSize_le_length (hvalid x hx)).trans hsum

end Program

end SchemaWire

import SchemaWire.Proofs.Program.RoundTrip
/-!
# Writing what has been read

Whatever bytes a decoder is given, a value that it reads from them is one that the encoder of the
same program accepts, and it has its normal form already (`Program.yields_decodeLayout`). Writing it
takes at most as many bytes as have been read, and the same ones where no number is a varint; so
decoding loses nothing but the padding of varints.

The proof has the shape of the one for reading back: layouts between two records first
(`Program.yields_decodeLayout_of`), then records by induction on the room for them. A decoder that
succeeds has checked all that an encoder asks for: boxes and kinds by construction, lengths by their
four bytes, counts by the bytes that are left, and nesting by the same bound.
-/

namespace SchemaWire

open Decoder

/-- Pieces retrace one by one, so their concatenation does. -/
theorem Retraces.flatten {α : Type} {exact : Prop} {again : α → List UInt8} {xs : List α}
    {pieces : List (List UInt8)}
    (h : List.Forall₂ (fun x piece => Retraces exact piece (again x)) xs pieces) :
    Retraces exact pieces.flatten (xs.flatMap again) := by
  induction h with
  | nil => exact Retraces.refl []
  | cons hx _ ih => exact hx.append ih

theorem Retraces.flatMap {α : Type} {exact : Prop} {bytesOf again : α → List UInt8} {xs : List α}
    (h : ∀ x ∈ xs, Retraces exact (bytesOf x) (again x)) :
    Retraces exact (xs.flatMap bytesOf) (xs.flatMap again) := by
  rw [List.flatMap_def]
  exact Retraces.flatten (List.forall₂_map_right_iff.2 (List.forall₂_same.2 h))

/-- A layout that is found under a name is that of a field. -/
theorem exists_of_layoutOf?_eq_some {fields : List (Field Layout)} {name : String} {a : Layout}
    (h : layoutOf? fields name = some a) : ∃ f ∈ fields, f.name = name ∧ f.layout = a := by
  obtain ⟨f, hf, rfl⟩ := Option.map_eq_some_iff.1 h
  exact ⟨f, List.mem_of_find?_eq_some hf, by simpa using List.find?_some hf, rfl⟩

namespace Program

variable {p : Program} {room : Nat} {a : Layout} {v : Value} {bytes : List UInt8}

/-- A value that has been read from some bytes is accepted again, has its normal form, and is
written as the same bytes but for the padding of varints. -/
structure Rewrites (p : Program) (room : Nat) (a : Layout) (v : Value) (bytes : List UInt8) :
    Prop where
  valid : (p.layoutScript (p.recordScript room) a v).Valid
  normal : p.snapshot.IsNormal a v
  retraces : Retraces p.FixedWidth bytes
    ((p.layoutScript (p.recordScript room) a v).bytes p.format)

/-! ### Nullables -/

/-- Under a nullable, what is accepted as something is no null. -/
theorem not_isNull_of_valid (hinner : a.isNullable = false)
    (hboxed : ∀ q, a = .primitive q → q.wrapped = true)
    (h : (p.layoutScript (p.recordScript room) a v).Valid) : ¬v.isNull = true := by
  -- A null is `null` or an empty box, and none of these layouts has a script for either.
  cases a with
  | primitive q =>
    obtain ⟨x, rfl, -⟩ := Primitive.valid_script_iff.1 h
    simp [Primitive.box, hboxed q rfl, Value.isNull]
  | text =>
    obtain ⟨t, rfl, -⟩ := valid_textScript_iff.1 h
    exact Bool.false_ne_true
  | nullable inner => cases hinner
  | list member =>
    obtain ⟨vs, rfl, -⟩ := valid_list_iff.1 h
    exact Bool.false_ne_true
  | record name fields =>
    obtain ⟨_, _, -, rfl, -⟩ := exists_of_valid_record rfl h
    exact Bool.false_ne_true
  | reference name =>
    obtain ⟨_, _, -, rfl, -⟩ := exists_of_valid_record rfl h
    exact Bool.false_ne_true
  | subtypes group members =>
    cases v with
    | record type fields => exact Bool.false_ne_true
    | _ => exact absurd h Script.not_valid_fail

theorem isNormal_nullValue (s : Snapshot) (inner : Layout) :
    s.IsNormal (.nullable inner) inner.nullValue := by
  cases inner <;> rfl

theorem isNormal_box {s : Snapshot} {q : Primitive} {x : Scalar} : s.IsNormal a (q.box x) := by
  unfold Primitive.box
  split <;> trivial

/-- A nullable has no part in whether a value that is no null has its normal form. -/
theorem isNormal_nullable_of_not_isNull {s : Snapshot} {inner : Layout} (h : ¬v.isNull = true) :
    s.IsNormal (.nullable inner) v ↔ s.IsNormal inner v := by
  -- What stands inside an option has the normal form of its own layout.
  cases v with
  | null => exact absurd rfl h
  | wrapped box =>
    cases box with
    | none => exact absurd rfl h
    | some x => exact Iff.rfl
  | scalar x => exact Iff.rfl
  | text t => exact Iff.rfl
  | record type fields => exact Iff.rfl
  | list vs => rw [Snapshot.IsNormal, Snapshot.IsNormal, Layout.member_nullable]

/-- **Nullables.** A packed Boolean is read by itself; otherwise the first byte says whether there
is something, and only `0` and `1` are read. -/
theorem yields_nullable {inner : Layout} {readCall : TypeName → Decoder Value}
    (hinner : inner.isNullable = false) (hboxed : ∀ q, inner = .primitive q → q.wrapped = true)
    (h : (p.decodeLayout readCall inner).Yields p.format (p.Rewrites room inner)) :
    (p.decodeLayout readCall (.nullable inner)).Yields p.format
      (p.Rewrites room (.nullable inner)) := by
  rw [decodeLayout]
  cases hpacked : p.packed? inner with
  | some wrapped =>
    obtain ⟨q, rfl, hkind, rfl⟩ := packed?_eq_some hpacked
    refine (yields_decodePacked hkind (hboxed q rfl)).mono ?_
    rintro v bytes ⟨hvalid, rfl, hv⟩
    have hscript : p.layoutScript (p.recordScript room) (.nullable (.primitive q)) v =
        packedScript q.wrapped v := layoutScript_nullable_of_packed hpacked
    refine ⟨hscript ▸ hvalid, ?_, hscript ▸ Retraces.refl _⟩
    rcases hv with rfl | ⟨b, rfl⟩
    · exact isNormal_nullValue p.snapshot _
    · exact isNormal_box
  | none =>
    refine yields_readByte.bind ?_
    rintro byte bytes rfl
    -- Absent, present, or a byte that is refused.
    by_cases hzero : byte = 0
    · subst hzero
      have hnull := inner.isNull_nullValue
      refine Yields.pure ⟨?_, isNormal_nullValue p.snapshot inner, ?_⟩
      · rw [layoutScript_nullable_of_isNull hpacked hnull]
        simp [Step.Valid]
      · rw [layoutScript_nullable_of_isNull hpacked hnull]
        exact Retraces.refl _
    · rw [if_neg hzero]
      by_cases hone : byte = 1
      · subst hone
        refine h.mono fun v more hv => ?_
        -- What has been read is no null, so it is written behind the same byte again.
        have hnull := not_isNull_of_valid hinner hboxed hv.valid
        have hscript : p.layoutScript (p.recordScript room) (.nullable inner) v =
            .raw [1] :: p.layoutScript (p.recordScript room) inner v :=
          layoutScript_nullable_of_not_isNull hpacked hnull
        refine ⟨?_, (isNormal_nullable_of_not_isNull hnull).2 hv.normal, ?_⟩
        · rw [hscript, Script.valid_cons]
          exact ⟨trivial, hv.valid⟩
        · rw [hscript, Script.bytes_cons]
          exact (Retraces.refl _).append hv.retraces
      · rw [if_neg hone]
        exact Yields.throw _

/-! ### Lists -/

theorem yields_list {member : Layout} {readCall : TypeName → Decoder Value}
    (h : (p.decodeLayout readCall member).Yields p.format (p.Rewrites room member)) :
    (p.decodeLayout readCall (.list member)).Yields p.format (p.Rewrites room (.list member)) := by
  rw [decodeLayout_list]
  refine yields_readLength.bind ?_
  rintro n counted ⟨hn, hle, hexact⟩ r v r' hr hd
  obtain ⟨hlimit, hd⟩ := decodeCounted_eq_ok_iff.1 hd
  obtain ⟨vs, r₁, hvs, hv⟩ := Decoder.bind_eq_ok_iff.1 hd
  cases hv
  obtain ⟨bytes, hbytes, rfl, hlength, pieces, rfl, hall⟩ := h.replicate n r vs r' hr hvs
  subst hlength
  -- The limit of the decoder keeps within that of the encoder, which only has one for members
  -- without bytes.
  have hcount : ¬p.TooLong member vs.length := by
    rintro ⟨hmany, hzero⟩
    rw [countLimit, if_pos hzero] at hlimit
    exact Nat.not_lt.2 hlimit hmany
  have hmembers : ∀ x ∈ vs, (p.layoutScript (p.recordScript room) member x).Valid ∧
      p.snapshot.IsNormal member x :=
    ((List.forall₂_and_left _ _).1 (hall.imp fun _ _ hx => ⟨⟨hx.valid, hx.normal⟩, hx⟩)).1
  refine ⟨_, hbytes, rfl, ?_, ?_, ?_⟩
  · exact valid_list_iff.2 ⟨vs, rfl, hcount, hn, fun x hx => (hmembers x hx).1⟩
  · exact Snapshot.membersNormal_iff.2 fun x hx => (hmembers x hx).2
  · rw [layoutScript_list hcount, Script.bytes_cons, Script.bytes_flatMap]
    refine Retraces.append ⟨hle, fun hfixed => hexact hfixed.1⟩ (Retraces.flatten ?_)
    exact hall.imp fun _ _ hx => hx.retraces

/-! ### Records -/

/-- Fields that have been read stand under their names, each read from a piece of its own. -/
theorem yields_decodeFields {readCall : TypeName → Decoder Value} {fields : List (Field Layout)}
    {P : Layout → Value → List UInt8 → Prop} (hnames : (fields.map (·.name)).Nodup)
    (h : ∀ f ∈ fields, (p.decodeLayout readCall f.layout).Yields p.format (P f.layout))
    (done : FieldMap Value) :
    (p.decodeFields readCall fields done).Yields p.format fun m bytes =>
      ∃ (held : Field Layout → Value) (pieceOf : Field Layout → List UInt8),
        m = fields.foldl (fun m f => m.insert f.name (held f)) done ∧
          bytes = fields.flatMap pieceOf ∧ ∀ f ∈ fields, P f.layout (held f) (pieceOf f) := by
  -- By induction on the fields, the values read so far being the accumulator of the fold.
  induction fields generalizing done with
  | nil => exact Yields.pure ⟨fun _ => .null, fun _ => [], rfl, rfl, fun _ hf => by cases hf⟩
  | cons f fields ih =>
    rw [List.map_cons, List.nodup_cons] at hnames
    obtain ⟨hf, hfields⟩ := List.forall_mem_cons.1 h
    refine hf.bind fun v bytes hv => (ih hnames.2 hfields _).mono ?_
    rintro m more ⟨held, pieceOf, rfl, rfl, hall⟩
    -- The first field is none of the others, so what is known about those stays.
    have hother : ∀ g ∈ fields, g ≠ f := by
      rintro g hg rfl
      exact hnames.1 (List.mem_map.2 ⟨g, hg, rfl⟩)
    refine ⟨Function.update held f v, Function.update pieceOf f bytes, ?_, ?_, ?_⟩
    · rw [List.foldl_cons, Function.update_self]
      refine List.foldl_ext _ _ _ fun m g hg => ?_
      rw [Function.update_of_ne (hother g hg)]
    · rw [List.flatMap_cons, Function.update_self]
      congr 1
      exact List.flatMap_congr fun g hg => (Function.update_of_ne (hother g hg) ..).symm
    · refine List.forall_mem_cons.2 ⟨?_, fun g hg => ?_⟩
      · rw [Function.update_self, Function.update_self]
        exact hv
      · rw [Function.update_of_ne (hother g hg), Function.update_of_ne (hother g hg)]
        exact hall g hg

/-- Fields that have been put in one after the other are all there. -/
theorem find?_foldl_insert_present (hp : p.Proper) {name : TypeName} {f : Field Layout}
    (hf : f ∈ p.present name) (held : Field Layout → Value) :
    FieldMap.find? ((p.present name).foldl (fun m f => m.insert f.name (held f)) []) f.name =
      some (held f) := by
  have hkeys : (((p.present name).map fun f => (f.name, held f)).map (·.1)).Nodup := by
    rw [List.map_map]
    exact hp.nodup_present name
  have hfound := FieldMap.find?_foldl_insert_of_mem hkeys (List.mem_map.2 ⟨f, hf, rfl⟩) []
  rwa [List.foldl_map] at hfound

/-- **A completed record can be written again** if the fields on the wire can. -/
theorem rewrites_record {name : TypeName} {fields : FieldMap Value} {held : Field Layout → Value}
    {pieceOf : Field Layout → List UInt8} (hsorted : FieldMap.Sorted fields)
    (hdeclared : ∀ x ∈ fields, p.snapshot.Declares name x.1)
    (hpresent : ∀ f ∈ p.present name, fields.find? f.name = some (held f))
    (homitted : ∀ f ∈ p.omitted name, fields.find? f.name = some f.layout.default)
    (h : ∀ f ∈ p.present name, p.Rewrites room f.layout (held f) (pieceOf f)) :
    p.Rewrites (room + 1) (.reference name) (.record name fields)
      ((p.present name).flatMap pieceOf) := by
  have hdeclared' := fun x hx => declares_iff.1 (hdeclared x hx)
  refine ⟨?_, ⟨hsorted, hdeclared, fun f hf => ⟨_, hpresent f hf⟩, homitted, ?_⟩, ?_⟩
  · rw [layoutScript_of_recordName? rfl, valid_recordScript_succ_iff, valid_bodyScript_iff]
    exact ⟨fields, rfl, hdeclared', fun f hf => ⟨held f, hpresent f hf, (h f hf).valid⟩⟩
  · rw [Snapshot.fieldsNormal_iff]
    intro x hx a ha
    obtain ⟨f, hf, hname, rfl⟩ := exists_of_layoutOf?_eq_some ha
    -- The record is sorted, so the entry is the one that is found under its name.
    have hx' := hsorted.find?_eq_some_iff.2 hx
    rw [← hname, hpresent f hf] at hx'
    exact Option.some.inj hx' ▸ (h f hf).normal
  · rw [bytes_record rfl hdeclared' fun f hf => ⟨_, hpresent f hf⟩]
    refine Retraces.flatMap fun f hf => ?_
    rw [hpresent f hf, Option.getD_some]
    exact (h f hf).retraces

/-- A record that has been read is accepted again: it holds its declared fields and no others. -/
theorem yields_decodeBody (hp : p.Proper) {readCall : TypeName → Decoder Value} {name : TypeName}
    (h : ∀ f ∈ p.present name,
      (p.decodeLayout readCall f.layout).Yields p.format (p.Rewrites room f.layout)) :
    (p.decodeBody readCall name).Yields p.format (p.Rewrites (room + 1) (.reference name)) := by
  unfold decodeBody
  refine (yields_decodeFields (hp.nodup_present name) h []).bind ?_
  rintro m bytes ⟨held, pieceOf, rfl, rfl, hall⟩
  have hread : ∀ f ∈ p.present name, FieldMap.find? ((p.present name).foldl
      (fun m f => m.insert f.name (held f)) []) f.name = some (held f) := fun f hf =>
    find?_foldl_insert_present hp hf held
  -- Every field on the wire has been read, so the defaults only fill the omitted ones.
  rw [withDefaults_eq_complete hread]
  refine Yields.pure ?_
  rw [List.append_nil]
  refine rewrites_record (Snapshot.sorted_complete _ _)
    (fun x hx => Snapshot.declares_of_mem_complete hx) ?_ ?_ hall
  · intro f hf
    rw [Snapshot.find?_complete_present (hp.nodup_declared name) hf, hread f hf, Option.getD_some]
  · intro f hf
    rw [Snapshot.find?_complete_omitted (hp.nodup_declared name) hf]

/-- However a record is laid out, it is read like a reference to it. -/
theorem yields_of_recordName? {readCall : TypeName → Decoder Value} {name : TypeName}
    (ha : a.recordName? = some name)
    (h : (readCall name).Yields p.format (p.Rewrites room (.reference name))) :
    (p.decodeLayout readCall a).Yields p.format (p.Rewrites room a) := by
  rw [decodeLayout_of_recordName? ha]
  refine h.mono fun v bytes hv => ?_
  have hscript : p.layoutScript (p.recordScript room) a v =
      p.layoutScript (p.recordScript room) (.reference name) v := layoutScript_of_recordName? ha _ v
  obtain ⟨_, held, -, rfl, -⟩ := exists_of_valid_record rfl hv.valid
  exact ⟨hscript ▸ hv.valid, hv.normal, hscript ▸ hv.retraces⟩

/-- The member that a tag stands for is found again by the type of what has been read. -/
theorem yields_subtypes {group : GroupName} {members : List (Member Layout)}
    {readCall : TypeName → Decoder Value}
    (ha : (Layout.subtypes group members).Proper p.tagEncoding)
    (h : ∀ name, (readCall name).Yields p.format (p.Rewrites room (.reference name))) :
    (p.decodeLayout readCall (.subtypes group members)).Yields p.format
      (p.Rewrites room (.subtypes group members)) := by
  obtain ⟨htags, htypes, hmembers⟩ := ha
  rw [decodeLayout]
  refine yields_readTag.bind fun tag bytes htag => ?_
  rcases decodeMember?_eq_some_or_eq_none htags readCall tag with ⟨m, hm, rfl, hread⟩ | hnone
  · have hname : m.layout.recordName? = some m.type := (hmembers m hm).2
    rw [hread]
    -- The member that was read is of the type that its tag stands for, so it is written with this
    -- tag.
    refine (yields_of_recordName? hname (h m.type)).mono fun v more hv => ?_
    obtain ⟨_, held, -, rfl, -⟩ := exists_of_valid_record hname hv.valid
    refine ⟨(valid_subtypes_iff htypes).2 ⟨m, hm, rfl, hv.valid⟩, hv.normal, ?_⟩
    rw [layoutScript_subtypes htypes hm rfl, Script.bytes_cons]
    exact htag.append hv.retraces
  · rw [hnone]
    exact Yields.throw _

/-! ### Putting the pieces together -/

/-- **What is read is accepted, if this holds of the records in it.** -/
theorem yields_decodeLayout_of {readCall : TypeName → Decoder Value} (ha : a.Proper p.tagEncoding)
    (hrecord : ∀ name, (readCall name).Yields p.format (p.Rewrites room (.reference name))) :
    (p.decodeLayout readCall a).Yields p.format (p.Rewrites room a) := by
  -- By induction on the layout, with the records that it refers to as the hypothesis.
  induction a with
  | primitive q =>
    refine Primitive.yields_decode.mono ?_
    rintro v bytes ⟨x, hkind, rfl, hle, hexact⟩
    refine ⟨Primitive.valid_script_iff.2 ⟨x, rfl, hkind⟩, isNormal_box, ?_⟩
    change Retraces _ _ ((q.script p.format (q.box x)).bytes p.format)
    rw [Primitive.script_box hkind, Script.bytes_cons, Script.bytes_nil, List.append_nil]
    -- Without varints there is one spelling, and the bytes are the same.
    exact ⟨hle, fun hfixed => hexact hfixed.2.1⟩
  | text =>
    refine yields_decodeText.mono ?_
    rintro v bytes ⟨hvalid, ⟨t, rfl⟩, hretraces⟩
    exact ⟨hvalid, trivial, hretraces⟩
  | nullable inner ih =>
    obtain ⟨hnullable, hboxed, hinner⟩ := ha
    exact yields_nullable hnullable hboxed (ih hinner)
  | list member ih => exact yields_list (ih ha)
  | record name fields => exact yields_of_recordName? rfl (hrecord name)
  | reference name => exact yields_of_recordName? rfl (hrecord name)
  | subtypes group members ih => exact yields_subtypes ha hrecord

/-- **A record that has been read is accepted**, by induction on the records that may be nested in
it. -/
theorem yields_decodeRecord (hp : p.Proper) (name : TypeName) :
    (p.decodeRecord room name).Yields p.format (p.Rewrites room (.reference name)) := by
  induction room generalizing name with
  | zero => exact Yields.throw _
  | succ room ih =>
    exact (yields_decodeBody hp fun f hf => yields_decodeLayout_of (hp.present hf) ih).nested

/-- **Writing back.** Whatever a decoder reads, from whatever bytes, is a value in normal form that
the encoder accepts and writes as the same bytes but for the padding of varints. -/
theorem yields_decodeLayout (hp : p.Proper) (ha : a.Proper p.tagEncoding) :
    (p.decodeLayout (p.decodeRecord room) a).Yields p.format (p.Rewrites room a) :=
  yields_decodeLayout_of ha (yields_decodeRecord hp)

end Program

end SchemaWire

import SchemaWire.Proofs.Layout.Nesting
import SchemaWire.Proofs.Program.Locality
import SchemaWire.Proofs.Wire.Failing
/-!
# What happens to values that nest deeply

How many records are nested in a value decides whether there is room for it, and nothing else does.

* `Program.follows_layoutScript` — a script for little room follows the script for all the room
  that the value needs, and breaks off at the first record for which there is none.
* `Program.reads_of_nesting_le`, `Program.fails_decodeLayout` — from the bytes of a value that has
  been written with enough room, a decoder with less room reads the value if it still fits, and
  fails at the first record that does not.
* `Program.yields_nesting_le` — whatever is read, from whatever bytes, keeps within the room.

Each of them is shown for a layout between two records first, and for records by induction on the
room.
-/

namespace SchemaWire

open Decoder

/-! ### Values without records -/

theorem Value.nesting_nullValue (inner : Layout) : inner.nullValue.nesting = 0 := by
  cases inner <;> rfl

theorem Value.nesting_default (a : Layout) : a.default.nesting = 0 := by
  -- A default holds no record, whatever the layout.
  cases a with
  | primitive q =>
    change q.default.nesting = 0
    unfold Primitive.default
    split <;> rfl
  | nullable inner => exact nesting_nullValue inner
  | _ => rfl

namespace Program

variable {p : Program} {big room : Nat} {a : Layout} {v : Value} {name : TypeName}

theorem nestingAlong_of_isNull {follows : TypeName → String → Bool} (h : v.isNull = true) :
    v.nestingAlong follows = 0 := by
  rcases isNull_iff.1 h with rfl | rfl <;> rfl

theorem nestingAlong_box {follows : TypeName → String → Bool} {q : Primitive} {x : Scalar} :
    (q.box x).nestingAlong follows = 0 := by
  unfold Primitive.box
  split <;> rfl

/-! ### Writing with less room -/

/-- **A value is written as far as there is room, if the records in it are.** -/
theorem follows_layoutScript_of (ha : a.Proper p.tagEncoding)
    (hrecord : ∀ name x, (p.recordScript big name x).Valid →
      Script.Follows (p.snapshot.nesting x ≤ room) (.depthExceeded maxDepth)
        (p.recordScript big name x) (p.recordScript room name x))
    (h : (p.layoutScript (p.recordScript big) a v).Valid) :
    Script.Follows (p.snapshot.nesting v ≤ room) (.depthExceeded maxDepth)
      (p.layoutScript (p.recordScript big) a v) (p.layoutScript (p.recordScript room) a v) := by
  -- What holds no record fits in any room, and its script does not depend on the room.
  have hflat {w : Value} (hw : p.snapshot.nesting w = 0) : p.snapshot.nesting w ≤ room :=
    hw ▸ Nat.zero_le room
  induction a generalizing v with
  | primitive q =>
    obtain ⟨x, rfl, -⟩ := Primitive.valid_script_iff.1 h
    exact Script.Follows.refl (hflat nestingAlong_box) _
  | text =>
    obtain ⟨t, rfl, -⟩ := valid_textScript_iff.1 h
    exact Script.Follows.refl (hflat rfl) _
  | nullable inner ih =>
    cases hpacked : p.packed? inner with
    | some wrapped =>
      obtain ⟨q, rfl, hkind, rfl⟩ := packed?_eq_some hpacked
      rw [layoutScript_nullable_of_packed hpacked] at h ⊢
      rw [layoutScript_nullable_of_packed hpacked]
      rcases (valid_packedScript_iff hkind).1 h with hnull | ⟨x, rfl, -⟩
      · exact Script.Follows.refl (hflat (nestingAlong_of_isNull hnull)) _
      · exact Script.Follows.refl (hflat nestingAlong_box) _
    | none =>
      by_cases hnull : v.isNull = true
      · rw [layoutScript_nullable_of_isNull hpacked hnull,
          layoutScript_nullable_of_isNull hpacked hnull]
        exact Script.Follows.refl (hflat (nestingAlong_of_isNull hnull)) _
      · rw [layoutScript_nullable_of_not_isNull hpacked hnull] at h ⊢
        rw [layoutScript_nullable_of_not_isNull hpacked hnull]
        exact (ih ha.2.2 (Script.valid_cons.1 h).2).cons _
  | list member ih =>
    obtain ⟨vs, rfl, hcount, -, hmembers⟩ := valid_list_iff.1 h
    rw [layoutScript_list hcount, layoutScript_list hcount]
    have hall := Script.Follows.flatMap fun x hx => ih ha (hmembers x hx)
    exact (hall.cons _).congr Snapshot.nesting_list_le_iff.symm
  | record name fields => exact hrecord name v h
  | reference name => exact hrecord name v h
  | subtypes group members =>
    obtain ⟨-, htypes, hmembers⟩ := ha
    obtain ⟨m, hm, htype, hvalid⟩ := (valid_subtypes_iff htypes).1 h
    -- The same member answers whatever the room, and hands over to a record.
    have hname := (hmembers m hm).2
    rw [layoutScript_of_recordName? hname] at hvalid
    rw [layoutScript_subtypes htypes hm htype, layoutScript_subtypes htypes hm htype,
      layoutScript_of_recordName? hname, layoutScript_of_recordName? hname]
    exact (hrecord m.type v hvalid).cons _

/-- **A record is written as far as there is room**, by induction on the room that it needs. -/
theorem follows_recordScript (hp : p.Proper) (h : (p.recordScript big name v).Valid) :
    Script.Follows (p.snapshot.nesting v ≤ room) (.depthExceeded maxDepth)
      (p.recordScript big name v) (p.recordScript room name v) := by
  -- By induction on the room of the longer script, the shorter one running out first.
  induction big generalizing room name v with
  | zero => exact absurd h not_valid_recordScript_zero
  | succ big ih =>
    obtain ⟨fields, rfl, hdeclared, hfields⟩ :=
      valid_bodyScript_iff.1 (valid_recordScript_succ_iff.1 h)
    cases room with
    | zero => exact Script.Follows.fail (Nat.not_le.2 Value.nestingAlong_record_pos) _
    | succ room =>
      -- What the fields hold has one level less, on both sides.
      have hbody : Script.Follows (∀ f ∈ p.present name, ∀ x, fields.find? f.name = some x →
          p.snapshot.nesting x ≤ room) (.depthExceeded maxDepth)
          (p.bodyScript (p.recordScript big) name (.record name fields))
          (p.bodyScript (p.recordScript room) name (.record name fields)) := by
        rw [bodyScript_record hdeclared, bodyScript_record hdeclared]
        refine Script.Follows.flatMap fun f hf => ?_
        obtain ⟨x, hx, hvalid⟩ := hfields f hf
        simp only [hx, Option.some.injEq, forall_eq']
        exact follows_layoutScript_of (hp.present hf) (fun _ _ hy => ih hy) hvalid
      refine ((hbody.append (.refl trivial [.leave])).cons .enter).congr ?_
      rw [and_true]
      exact (Snapshot.nesting_record_le_succ_iff (s := p.snapshot)).symm

/-- **Writing with less room.** Of a value that can be written at all, as much is written as there
is room for. -/
theorem follows_layoutScript (hp : p.Proper) (ha : a.Proper p.tagEncoding)
    (h : (p.layoutScript (p.recordScript big) a v).Valid) :
    Script.Follows (p.snapshot.nesting v ≤ room) (.depthExceeded maxDepth)
      (p.layoutScript (p.recordScript big) a v) (p.layoutScript (p.recordScript room) a v) :=
  follows_layoutScript_of ha (fun _ _ hx => follows_recordScript hp hx) h

/-! ### Reading with less room -/

/-- **A value that fits is read back**, however much room it has been written with. -/
theorem reads_of_nesting_le (hp : p.Proper) (ha : a.Proper p.tagEncoding)
    (h : (p.layoutScript (p.recordScript big) a v).Valid) (hfits : p.snapshot.nesting v ≤ room) :
    (p.decodeLayout (p.decodeRecord room) a).Reads p.format
      ((p.layoutScript (p.recordScript big) a v).bytes p.format) (p.snapshot.normalize a v) := by
  have hscript := (follows_layoutScript hp ha h).1 hfits
  rw [← hscript] at h ⊢
  exact reads_decodeLayout hp ha h

theorem fails_decodeFields {readCall : TypeName → Decoder Value} {fits : Field Layout → Prop}
    {bytesOf : Field Layout → List UInt8} {valueOf : Field Layout → Value} {e : DecodeError}
    {fields : List (Field Layout)}
    (hreads : ∀ f ∈ fields, fits f →
      (p.decodeLayout readCall f.layout).Reads p.format (bytesOf f) (valueOf f))
    (hfails : ∀ f ∈ fields, ¬fits f →
      (p.decodeLayout readCall f.layout).Fails p.format (bytesOf f) e)
    (h : ¬∀ f ∈ fields, fits f) (done : FieldMap Value) :
    (p.decodeFields readCall fields done).Fails p.format (fields.flatMap bytesOf) e := by
  -- Up to the first field that does not fit all are read; that one fails, whatever comes behind it.
  induction fields generalizing done with
  | nil => exact absurd (List.forall_mem_nil _) h
  | cons f fields ih =>
    obtain ⟨hreadsf, hreads⟩ := List.forall_mem_cons.1 hreads
    obtain ⟨hfailsf, hfails⟩ := List.forall_mem_cons.1 hfails
    by_cases hf : fits f
    · have hfields : ¬∀ g ∈ fields, fits g := fun hall => h (List.forall_mem_cons.2 ⟨hf, hall⟩)
      exact (hreadsf hf).bind_fails (ih hreads hfails hfields _)
    · exact ((hfailsf hf).bind _).append _

/-- A list is read up to the first member that does not fit: its count is not refused, as all of the
members are there. -/
theorem fails_list {member : Layout} {vs : List Value} {readCall : TypeName → Decoder Value}
    {fits : Value → Prop} {valueOf : Value → Value} {e : DecodeError}
    (hcount : ¬p.TooLong member vs.length) (hlength : vs.length < 2 ^ 32)
    (hmembers : ∀ x ∈ vs, (p.layoutScript (p.recordScript big) member x).Valid)
    (hreads : ∀ x ∈ vs, fits x → (p.decodeLayout readCall member).Reads p.format
      ((p.layoutScript (p.recordScript big) member x).bytes p.format) (valueOf x))
    (hfails : ∀ x ∈ vs, ¬fits x → (p.decodeLayout readCall member).Fails p.format
      ((p.layoutScript (p.recordScript big) member x).bytes p.format) e)
    (h : ¬∀ x ∈ vs, fits x) :
    (p.decodeLayout readCall (.list member)).Fails p.format
      ((p.layoutScript (p.recordScript big) (.list member) (.list vs)).bytes p.format) e := by
  rw [layoutScript_list hcount, Script.bytes_cons, Script.bytes_flatMap, decodeLayout_list]
  refine (reads_readLength hlength).bind_fails ?_
  intro r hr hbytes
  -- The count passes the limit, since the bytes behind it are enough for all members.
  have hlimit : vs.length ≤ p.countLimit member r.remaining :=
    length_le_countLimit hcount hmembers (r.remaining_eq ▸ hbytes.length_le)
  rw [decodeCounted_of_le hlimit]
  exact ((Fails.repeatInto hreads hfails h []).bind fun vs => return Value.list vs) r hr hbytes

/-- **A value that does not fit is not read, if the records in it are not.** -/
theorem fails_decodeLayout_of (hp : p.Proper) (ha : a.Proper p.tagEncoding)
    (hrecord : ∀ name x, (p.recordScript big name x).Valid → ¬p.snapshot.nesting x ≤ room →
      (p.decodeRecord room name).Fails p.format ((p.recordScript big name x).bytes p.format)
        (.depthExceeded maxDepth))
    (h : (p.layoutScript (p.recordScript big) a v).Valid) (hdeep : ¬p.snapshot.nesting v ≤ room) :
    (p.decodeLayout (p.decodeRecord room) a).Fails p.format
      ((p.layoutScript (p.recordScript big) a v).bytes p.format) (.depthExceeded maxDepth) := by
  -- What holds no record fits in any room, so only lists and records are left to fail.
  have hflat {w : Value} (hw : p.snapshot.nesting w = 0) : p.snapshot.nesting w ≤ room :=
    hw ▸ Nat.zero_le room
  induction a generalizing v with
  | primitive q =>
    obtain ⟨x, rfl, -⟩ := Primitive.valid_script_iff.1 h
    exact absurd (hflat nestingAlong_box) hdeep
  | text =>
    obtain ⟨t, rfl, -⟩ := valid_textScript_iff.1 h
    exact absurd (hflat rfl) hdeep
  | nullable inner ih =>
    by_cases hnull : v.isNull = true
    · exact absurd (hflat (nestingAlong_of_isNull hnull)) hdeep
    · rw [decodeLayout]
      cases hpacked : p.packed? inner with
      | some wrapped =>
        obtain ⟨q, rfl, hkind, rfl⟩ := packed?_eq_some hpacked
        rw [layoutScript_nullable_of_packed hpacked] at h
        obtain ⟨x, rfl, -⟩ := ((valid_packedScript_iff hkind).1 h).resolve_left hnull
        exact absurd (hflat nestingAlong_box) hdeep
      | none =>
        rw [layoutScript_nullable_of_not_isNull hpacked hnull] at h ⊢
        exact (reads_readByte 1).bind_fails (ih ha.2.2 (Script.valid_cons.1 h).2 hdeep)
  | list member ih =>
    obtain ⟨vs, rfl, hcount, hlength, hmembers⟩ := valid_list_iff.1 h
    -- The members in front of the first that is too deep are read back as usual.
    exact fails_list hcount hlength hmembers
      (fun x hx hfits => reads_of_nesting_le hp ha (hmembers x hx) hfits)
      (fun x hx hdeep => ih ha (hmembers x hx) hdeep)
      (fun hall => hdeep (Snapshot.nesting_list_le_iff.2 hall))
  | record name fields => exact hrecord name v h hdeep
  | reference name => exact hrecord name v h hdeep
  | subtypes group members =>
    obtain ⟨htags, htypes, hmembers⟩ := ha
    obtain ⟨m, hm, htype, hvalid⟩ := (valid_subtypes_iff htypes).1 h
    obtain ⟨hmax, hname⟩ := hmembers m hm
    rw [layoutScript_of_recordName? hname] at hvalid
    rw [layoutScript_subtypes htypes hm htype, Script.bytes_cons, decodeLayout,
      layoutScript_of_recordName? hname]
    refine (reads_readTag hmax p.format).bind_fails ?_
    rw [decodeMember?_of_mem htags hm, decodeLayout_of_recordName? hname]
    exact hrecord m.type v hvalid hdeep

/-- **A record that does not fit is not read**, by induction on the room that it has been written
with. -/
theorem fails_decodeRecord (hp : p.Proper) (h : (p.recordScript big name v).Valid)
    (hdeep : ¬p.snapshot.nesting v ≤ room) :
    (p.decodeRecord room name).Fails p.format ((p.recordScript big name v).bytes p.format)
      (.depthExceeded maxDepth) := by
  induction big generalizing room name v with
  | zero => exact absurd h not_valid_recordScript_zero
  | succ big ih =>
    obtain ⟨fields, rfl, hdeclared, hfields⟩ :=
      valid_bodyScript_iff.1 (valid_recordScript_succ_iff.1 h)
    cases room with
    -- No room is left, so nothing is read at all.
    | zero => exact Fails.throw _ _
    | succ room =>
      -- What a field holds; some field holds what does not fit one level below.
      let held (f : Field Layout) : Value := (fields.find? f.name).getD f.layout.default
      have hheld : ∀ f ∈ p.present name, fields.find? f.name = some (held f) ∧
          (p.layoutScript (p.recordScript big) f.layout (held f)).Valid := by
        intro f hf
        obtain ⟨x, hx, hvalid⟩ := hfields f hf
        simp only [held, hx, Option.getD_some, true_and]
        exact hvalid
      have hnot : ¬∀ f ∈ p.present name, p.snapshot.nesting (held f) ≤ room := by
        refine fun hall => hdeep (Snapshot.nesting_record_le_succ_iff.2 fun f hf x hx => ?_)
        obtain rfl := Option.some.inj ((hheld f hf).1.symm.trans hx)
        exact hall f hf
      have hbytes : (p.recordScript (big + 1) name (.record name fields)).bytes p.format =
          (p.present name).flatMap fun f =>
            (p.layoutScript (p.recordScript big) f.layout (held f)).bytes p.format :=
        bytes_record (a := .reference name) rfl hdeclared (fun f hf => ⟨_, (hheld f hf).1⟩) p.format
      have hread := fails_decodeFields
        (fun f hf hfits => reads_of_nesting_le hp (hp.present hf) (hheld f hf).2 hfits)
        (fun f hf hdeep => fails_decodeLayout_of hp (hp.present hf)
          (fun _ _ hy hdeep => ih hy hdeep) (hheld f hf).2 hdeep) hnot []
      rw [hbytes]
      exact (hread.bind _).nested

/-- **Reading with less room.** From the bytes of a value that does not fit, nothing is read. -/
theorem fails_decodeLayout (hp : p.Proper) (ha : a.Proper p.tagEncoding)
    (h : (p.layoutScript (p.recordScript big) a v).Valid) (hdeep : ¬p.snapshot.nesting v ≤ room) :
    (p.decodeLayout (p.decodeRecord room) a).Fails p.format
      ((p.layoutScript (p.recordScript big) a v).bytes p.format) (.depthExceeded maxDepth) :=
  fails_decodeLayout_of hp ha (fun _ _ hx hdeep => fails_decodeRecord hp hx hdeep) h hdeep

/-! ### What has been read -/

section Reading

variable {format : WireFormat}

theorem yields_primitive_nesting (q : Primitive) (wire : WireFormat) :
    (q.decode wire).Yields format fun v _ => v.nesting = 0 := by
  unfold Primitive.decode
  split
  · exact (yields_readVarint q.kind.varintBits_le).bind fun u _ _ =>
      (yields_ofExcept (q.kind.ofWord u)).bind fun x _ _ => Yields.pure nestingAlong_box
  · exact (yields_readFixed q.kind.width).bind fun n _ _ =>
      (yields_ofExcept (q.kind.ofBits n)).bind fun x _ _ => Yields.pure nestingAlong_box

theorem yields_decodeText_nesting : decodeText.Yields format fun v _ => v.nesting = 0 := by
  unfold decodeText
  refine yields_readLength.bind fun n _ _ => (yields_take n).bind fun bytes _ _ => ?_
  split
  · exact Yields.pure rfl
  · exact Yields.throw _

theorem yields_decodePacked_nesting (wrapped : Bool) :
    (decodePacked wrapped).Yields format fun v _ => v.nesting = 0 := by
  have hboolean (b : Bool) : (decodePacked.boolean wrapped b).nesting = 0 := by
    cases wrapped <;> rfl
  unfold decodePacked
  refine yields_readByte.bind fun byte bytes _ => ?_
  split
  · exact Yields.pure (by cases wrapped <;> rfl)
  · exact Yields.pure (hboolean false)
  · exact Yields.pure (hboolean true)
  · exact Yields.throw _

theorem yields_decodeFields_nesting {readCall : TypeName → Decoder Value}
    {fields : List (Field Layout)} {done : FieldMap Value}
    (h : ∀ f ∈ fields, (p.decodeLayout readCall f.layout).Yields format
      fun v _ => v.nesting ≤ room)
    (hdone : ∀ x ∈ done, x.2.nesting ≤ room) :
    (p.decodeFields readCall fields done).Yields format
      fun m _ => ∀ x ∈ m, x.2.nesting ≤ room := by
  induction fields generalizing done with
  | nil => exact Yields.pure hdone
  | cons f fields ih =>
    obtain ⟨hf, hfields⟩ := List.forall_mem_cons.1 h
    -- The map of values holds the new one and those read before.
    refine hf.bind fun v bytes hv => ih hfields fun x hx => ?_
    rcases FieldMap.mem_insert hx with rfl | hx
    · exact hv
    · exact hdone x hx

/-- The defaults of the fields that are not on the wire nest nothing. -/
theorem nesting_le_of_mem_withDefaults {fields : FieldMap Value}
    (h : ∀ x ∈ fields, x.2.nesting ≤ room) :
    ∀ x ∈ p.withDefaults name fields, x.2.nesting ≤ room := by
  -- The omitted fields get defaults, in which no record occurs.
  unfold withDefaults
  generalize p.omitted name = omitted
  induction omitted generalizing fields with
  | nil => exact h
  | cons f omitted ih =>
    refine ih fun x hx => ?_
    rcases FieldMap.mem_insert hx with rfl | hx
    · exact (Value.nesting_default f.layout).trans_le (Nat.zero_le room)
    · exact h x hx

/-- **What is read keeps within the room, if the records in it do.** -/
theorem yields_nesting_le_of {readCall : TypeName → Decoder Value}
    (h : ∀ name, (readCall name).Yields format fun v _ => v.nesting ≤ room) :
    (p.decodeLayout readCall a).Yields format fun v _ => v.nesting ≤ room := by
  -- What holds no record is within any room.
  have hflat {w : Value} (hw : w.nesting = 0) : w.nesting ≤ room := hw ▸ Nat.zero_le room
  induction a with
  | primitive q => exact (yields_primitive_nesting q p.format).mono fun v _ hv => hflat hv
  | text => exact yields_decodeText_nesting.mono fun v _ hv => hflat hv
  | nullable inner ih =>
    rw [decodeLayout]
    cases p.packed? inner with
    | some wrapped =>
      exact (yields_decodePacked_nesting wrapped).mono fun v _ hv => hflat hv
    | none =>
      refine yields_readByte.bind fun byte bytes _ => ?_
      split
      · exact Yields.pure (hflat (Value.nesting_nullValue inner))
      · split
        · exact ih
        · exact Yields.throw _
  | list member ih =>
    rw [decodeLayout_list]
    -- The members are read one by one, each with the room that the list has.
    refine yields_readLength.bind fun n counted _ r v r' hr hd => ?_
    have hall : (do return .list (← Decoder.replicate n (p.decodeLayout readCall member)) :
        Decoder Value).Yields format fun v _ => v.nesting ≤ room := by
      refine (ih.replicate n).bind ?_
      rintro vs bytes ⟨-, pieces, -, hvs⟩
      refine Yields.pure (Value.nestingAlong_list_le_iff.2 fun v hv => ?_)
      obtain ⟨_, -, hle⟩ := exists_mem_of_forall₂_left hvs hv
      exact hle
    exact hall r v r' hr (decodeCounted_eq_ok_iff.1 hd).2
  | record name fields => exact h name
  | reference name => exact h name
  | subtypes group members ih =>
    rw [decodeLayout]
    refine Yields.bind local_readTag fun tag bytes _ => ?_
    split
    · next d hd =>
      obtain ⟨m, hm, -, rfl⟩ := exists_of_decodeMember?_eq_some hd
      exact ih m hm
    · exact Yields.throw _

/-- **A record that is read keeps within the room**, by induction on it. -/
theorem yields_decodeRecord_nesting (name : TypeName) :
    (p.decodeRecord room name).Yields format fun v _ => v.nesting ≤ room := by
  induction room generalizing name with
  | zero => exact Yields.throw _
  | succ room ih =>
    -- What the fields hold may nest one record less.
    have hfields : (p.decodeFields (p.decodeRecord room) (p.present name) []).Yields format
        fun m _ => ∀ x ∈ m, x.2.nesting ≤ room :=
      yields_decodeFields_nesting (fun f _ => yields_nesting_le_of ih) (List.forall_mem_nil _)
    refine Yields.nested (hfields.bind fun fields bytes hm => Yields.pure ?_)
    exact Value.nesting_record_le_succ (nesting_le_of_mem_withDefaults hm)

/-- **What has been read.** From whatever bytes, no more records are read in one another than there
is room for. -/
theorem yields_nesting_le :
    (p.decodeLayout (p.decodeRecord room) a).Yields format fun v _ => v.nesting ≤ room :=
  yields_nesting_le_of yields_decodeRecord_nesting

end Reading

end Program

end SchemaWire

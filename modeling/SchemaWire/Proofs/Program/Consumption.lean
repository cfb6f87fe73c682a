import SchemaWire.Proofs.Program.Conformance
import SchemaWire.Proofs.Program.Soundness
/-!
# The least size bounds what is written and what is read

No value is written in fewer bytes than the least size of its layout, and none is read from fewer.
Where the least size is zero, no byte is written or read at all. Nothing is asked of the layout for
this: nullables may lie within nullables, the members of a group may share a tag or be no records,
and fields may share a name.

The two directions meet in `Program.Fills`, a statement on a layout and the bytes of a value of it.
What has a byte of its own fills its least size by that alone, and a record is filled by what fills
its fields (`Program.fills_record`). So an encoder (`Program.fills_of_valid`) and a decoder
(`Program.fills_decodeLayout`) only have to be followed from one record to the next. A record that
contains itself with nothing in between is measured as if it were empty there; it never comes to
filling one, since no value of it is ever finished.
-/

namespace SchemaWire

open Decoder

namespace Program

variable {p : Program} {room : Nat} {a b : Layout} {v : Value} {name : TypeName}
  {bytes : List UInt8}

/-- **Bytes that a value of a layout can take**: the layout has a size, they are no fewer, and there
are none of them if the size is zero. -/
structure Fills (p : Program) (a : Layout) (bytes : List UInt8) : Prop where
  hasSize : p.HasSize a (p.minSize a)
  le : p.minSize a ≤ bytes.length
  eq_nil : p.minSize a = 0 → bytes = []

/-! ### What fills a layout -/

/-- Whatever has a byte of its own is filled by its first piece. -/
theorem fills_plain (ha : a.recordName? = none) (h : p.plainSize a ≤ bytes.length) :
    p.Fills a bytes := by
  have hsize := minSize_eq (p := p) (.plain ha)
  refine ⟨hsize ▸ .plain ha, hsize ▸ h, fun hzero => ?_⟩
  exact absurd (hsize.symm.trans hzero) (Nat.ne_of_gt (plainSize_pos ha))

/-- What fills a record fills it however it is laid out. -/
theorem Fills.of_recordName? (h : p.Fills a bytes) (ha : a.recordName? = some name)
    (hb : b.recordName? = some name) : p.Fills b bytes := by
  have hsize : p.HasSize b (p.minSize a) := h.hasSize.of_recordName? ha hb
  have heq := minSize_eq hsize
  exact ⟨heq.symm ▸ hsize, heq.symm ▸ h.le, fun hzero => h.eq_nil (heq ▸ hzero)⟩

/-- Pieces that fill fields are as many bytes together as the fields take at least. -/
theorem sum_le_length_flatten {fields : List (Field Layout)} {pieces : List (List UInt8)}
    (h : List.Forall₂ (fun f piece => p.Fills f.layout piece) fields pieces) :
    (fields.map fun f => p.minSize f.layout).sum ≤ pieces.flatten.length := by
  induction h with
  | nil => exact Nat.le_refl _
  | cons hf _ ih =>
    rw [List.map_cons, List.sum_cons, List.flatten_cons, List.length_append]
    exact Nat.add_le_add hf.le ih

/-- Pieces that fill fields without bytes are no bytes. -/
theorem flatten_eq_nil {fields : List (Field Layout)} {pieces : List (List UInt8)}
    (h : List.Forall₂ (fun f piece => p.Fills f.layout piece) fields pieces)
    (hzero : (fields.map fun f => p.minSize f.layout).sum = 0) : pieces.flatten = [] := by
  induction h with
  | nil => rfl
  | cons hf _ ih =>
    rw [List.map_cons, List.sum_cons, Nat.add_eq_zero_iff] at hzero
    rw [List.flatten_cons, hf.eq_nil hzero.1, ih hzero.2, List.append_nil]

/-- **A record is filled by what fills its fields.** -/
theorem fills_record {pieces : List (List UInt8)} (ha : a.recordName? = some name)
    (h : List.Forall₂ (fun f piece => p.Fills f.layout piece) (p.present name) pieces) :
    p.Fills a pieces.flatten := by
  have hfields : ∀ f ∈ p.present name, p.HasSize f.layout (p.minSize f.layout) := by
    intro f hf
    obtain ⟨piece, -, hfills⟩ := exists_mem_of_forall₂_left h hf
    exact hfills.hasSize
  -- The least size of the record is the sum of those of its fields.
  have hsize := HasSize.record p.minSize ha hfields
  have heq := minSize_eq hsize
  exact ⟨heq.symm ▸ hsize, heq.symm ▸ sum_le_length_flatten h,
    fun hzero => flatten_eq_nil h (heq ▸ hzero)⟩

/-! ### Writing -/

/-- **What is written fills its layout**, by induction on the records that may be nested. -/
theorem fills_of_valid (h : (p.layoutScript (p.recordScript room) a v).Valid) :
    p.Fills a ((p.layoutScript (p.recordScript room) a v).bytes p.format) := by
  induction room generalizing a v with
  | zero =>
    cases ha : a.recordName? with
    | none => exact fills_plain ha (plainSize_le_length ha h)
    | some name =>
      obtain ⟨inner, fields, hroom, -⟩ := exists_of_valid_record ha h
      cases hroom
  | succ room ih =>
    cases ha : a.recordName? with
    | none => exact fills_plain ha (plainSize_le_length ha h)
    | some name =>
      obtain ⟨inner, fields, hroom, rfl, hdeclared, hfields⟩ := exists_of_valid_record ha h
      cases hroom
      -- The bytes of a record are those of its fields, each of which fills its layout.
      have hfound := fun f hf => (hfields f hf).imp fun _ hx => hx.1
      rw [bytes_record ha hdeclared hfound, List.flatMap_def]
      refine fills_record ha (List.forall₂_map_right_iff.2 (List.forall₂_same.2 fun f hf => ?_))
      obtain ⟨x, hx, hvalid⟩ := hfields f hf
      rw [hx, Option.getD_some]
      exact ih hvalid

/-! ### Reading -/

variable {readCall : TypeName → Decoder Value}

theorem fills_primitive (q : Primitive) :
    (p.decodeLayout readCall (.primitive q)).Yields p.format fun _ bytes =>
      p.Fills (.primitive q) bytes := by
  refine Primitive.yields_decode.mono ?_
  rintro v bytes ⟨x, -, -, hle, -⟩
  exact fills_plain rfl ((Primitive.minSize_le_length x).trans hle)

theorem fills_text :
    (p.decodeLayout readCall .text).Yields p.format fun _ bytes => p.Fills .text bytes := by
  refine yields_decodeText.mono ?_
  rintro v bytes ⟨-, ⟨t, rfl⟩, hle, -⟩
  refine fills_plain rfl (Nat.le_trans ?_ hle)
  rw [textScript, Script.bytes_cons, List.length_append]
  exact Nat.le_add_right_of_le (plainSize_length_le t.toUTF8.size)

/-- A packed boolean is read from one byte. -/
theorem yields_decodePacked_length (wrapped : Bool) (format : WireFormat) :
    (decodePacked wrapped).Yields format fun _ bytes => bytes.length = 1 := by
  unfold decodePacked
  refine yields_readByte.bind ?_
  rintro byte bytes rfl
  split
  · exact Yields.pure rfl
  · exact Yields.pure rfl
  · exact Yields.pure rfl
  · exact Yields.throw _

theorem fills_nullable {inner : Layout}
    (h : (p.decodeLayout readCall inner).Yields p.format fun _ bytes => p.Fills inner bytes) :
    (p.decodeLayout readCall (.nullable inner)).Yields p.format fun _ bytes =>
      p.Fills (.nullable inner) bytes := by
  rw [decodeLayout]
  cases p.packed? inner with
  | some wrapped =>
    refine (yields_decodePacked_length wrapped p.format).mono fun v bytes hlength => ?_
    exact fills_plain rfl hlength.ge
  | none =>
    refine yields_readByte.bind ?_
    rintro byte bytes rfl
    -- The byte that has been read is enough, whatever it says.
    have hfirst (more : List UInt8) : p.Fills (.nullable inner) ([byte] ++ more) :=
      fills_plain rfl (Nat.le_add_left 1 more.length)
    by_cases hzero : byte = 0
    · rw [if_pos hzero]
      exact Yields.pure (hfirst [])
    · rw [if_neg hzero]
      by_cases hone : byte = 1
      · rw [if_pos hone]
        exact h.mono fun v more _ => hfirst more
      · rw [if_neg hone]
        exact Yields.throw _

theorem fills_list {member : Layout}
    (h : (p.decodeLayout readCall member).Yields p.format fun _ bytes => p.Fills member bytes) :
    (p.decodeLayout readCall (.list member)).Yields p.format fun _ bytes =>
      p.Fills (.list member) bytes := by
  rw [decodeLayout_list]
  refine yields_readLength.bind ?_
  rintro n counted ⟨-, hle, -⟩ r v r' hr hd
  obtain ⟨vs, r₁, hvs, hv⟩ := Decoder.bind_eq_ok_iff.1 (decodeCounted_eq_ok_iff.1 hd).2
  -- The count itself already takes the least size of a list.
  cases hv
  obtain ⟨bytes, hbytes, rfl, -⟩ := h.replicate n r vs r' hr hvs
  refine ⟨bytes, hbytes, rfl, fills_plain rfl ?_⟩
  rw [List.length_append]
  exact Nat.le_add_right_of_le ((plainSize_length_le n).trans hle)

theorem fills_subtypes {group : GroupName} {members : List (Member Layout)}
    (h : ∀ m ∈ members, (p.decodeLayout readCall m.layout).Yields p.format fun _ bytes =>
      p.Fills m.layout bytes) :
    (p.decodeLayout readCall (.subtypes group members)).Yields p.format fun _ bytes =>
      p.Fills (.subtypes group members) bytes := by
  rw [decodeLayout]
  refine yields_readTag.bind fun tag bytes htag => ?_
  -- The tag alone takes the least size of the group.
  split
  · next d hd =>
    obtain ⟨m, hm, -, rfl⟩ := exists_of_decodeMember?_eq_some hd
    refine (h m hm).mono fun v more _ => fills_plain rfl ?_
    rw [List.length_append]
    exact Nat.le_add_right_of_le ((plainSize_subtypes_le tag).trans htag.1)
  · exact Yields.throw _

/-- Each field has a piece of its own, be there others of its name or not. -/
theorem fills_decodeFields {fields : List (Field Layout)}
    (h : ∀ f ∈ fields, (p.decodeLayout readCall f.layout).Yields p.format fun _ bytes =>
      p.Fills f.layout bytes) (done : FieldMap Value) :
    (p.decodeFields readCall fields done).Yields p.format fun _ bytes =>
      ∃ pieces, bytes = pieces.flatten ∧
        List.Forall₂ (fun f piece => p.Fills f.layout piece) fields pieces := by
  induction fields generalizing done with
  | nil => exact Yields.pure ⟨[], rfl, .nil⟩
  | cons f fields ih =>
    obtain ⟨hf, hfields⟩ := List.forall_mem_cons.1 h
    refine hf.bind fun v bytes hv => (ih hfields _).mono ?_
    rintro m more ⟨pieces, rfl, hpieces⟩
    exact ⟨bytes :: pieces, rfl, .cons hv hpieces⟩

theorem fills_decodeBody (h : ∀ f ∈ p.present name,
      (p.decodeLayout readCall f.layout).Yields p.format fun _ bytes => p.Fills f.layout bytes) :
    (p.decodeBody readCall name).Yields p.format fun _ bytes =>
      p.Fills (.reference name) bytes := by
  unfold decodeBody
  refine (fills_decodeFields h []).bind ?_
  rintro m bytes ⟨pieces, rfl, hpieces⟩
  refine Yields.pure ?_
  rw [List.append_nil]
  exact fills_record rfl hpieces

/-- **What is read fills its layout, if this holds of the records in it.** -/
theorem fills_decodeLayout_of
    (hrecord : ∀ name, (readCall name).Yields p.format fun _ bytes =>
      p.Fills (.reference name) bytes) (a : Layout) :
    (p.decodeLayout readCall a).Yields p.format fun _ bytes => p.Fills a bytes := by
  -- By induction on the layout; what is not a record takes its least size with its first bytes.
  induction a with
  | primitive q => exact fills_primitive q
  | text => exact fills_text
  | nullable inner ih => exact fills_nullable ih
  | list member ih => exact fills_list ih
  | record name fields => exact (hrecord name).mono fun v bytes hv => hv.of_recordName? rfl rfl
  | reference name => exact hrecord name
  | subtypes group members ih => exact fills_subtypes ih

/-- **What a record is read from fills it**, by induction on the records that may be nested. -/
theorem fills_decodeRecord (room : Nat) (name : TypeName) :
    (p.decodeRecord room name).Yields p.format fun _ bytes => p.Fills (.reference name) bytes := by
  induction room generalizing name with
  | zero => exact Yields.throw _
  | succ room ih => exact (fills_decodeBody fun f _ => fills_decodeLayout_of ih f.layout).nested

/-- **What is read fills its layout.** -/
theorem fills_decodeLayout (room : Nat) (a : Layout) :
    (p.decodeLayout (p.decodeRecord room) a).Yields p.format fun _ bytes => p.Fills a bytes :=
  fills_decodeLayout_of (fills_decodeRecord room) a

end Program

end SchemaWire

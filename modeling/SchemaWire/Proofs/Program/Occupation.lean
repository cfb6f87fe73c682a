import SchemaWire.Proofs.Program.Locality
/-!
# Which bytes a value occupies

A value that has been decoded shares out the bytes that it was read from among the values inside it:
after some bytes of its own, each member of a list and each field of a record occupies a piece
(`Program.Occupies`). Records have no bytes of their own, everything else has at least one. How long
a list may be is said by the bytes of its members alone. The decoder holds a count against all of
the input that is left, but members that have been read do not take less than their least size, so
the count also stands up to what they occupy (`Program.occupies_list`).
-/

namespace SchemaWire

open Decoder

namespace Program

/-- **A value occupies some bytes** in a layout. -/
inductive Occupies (p : Program) : Layout → Value → List UInt8 → Prop
  | primitive {q : Primitive} {x : Scalar} {bytes : List UInt8} (hbytes : bytes ≠ []) :
      Occupies p (.primitive q) (q.box x) bytes
  | text {t : String} {bytes : List UInt8} (hbytes : bytes ≠ []) : Occupies p .text (.text t) bytes
  /-- A null is told by a byte. -/
  | null {inner : Layout} {byte : UInt8} : Occupies p (.nullable inner) inner.nullValue [byte]
  /-- The byte of a packed boolean is the boolean as well. -/
  | packed {q : Primitive} {b : Bool} {byte : UInt8} :
      Occupies p (.nullable (.primitive q)) (q.box ⟨.bool, b⟩) [byte]
  | present {inner : Layout} {v : Value} {byte : UInt8} {bytes : List UInt8}
      (h : Occupies p inner v bytes) : Occupies p (.nullable inner) v (byte :: bytes)
  /-- A list begins with its count, and then each member has a piece, no smaller than the least size
  of a member. The length of the list is within the limit for the bytes of its members. -/
  | list {member : Layout} {vs : List Value} {count : List UInt8} {pieces : List (List UInt8)}
      (hcount : count ≠ []) (hlength : vs.length = pieces.length)
      (hmembers : ∀ v piece, (v, piece) ∈ vs.zip pieces → Occupies p member v piece)
      (hsize : ∀ piece ∈ pieces, p.minSize member ≤ piece.length)
      (hlimit : vs.length ≤ p.countLimit member pieces.flatten.length) :
      Occupies p (.list member) (.list vs) (count ++ pieces.flatten)
  /-- A record consists of the pieces of the fields on the wire, and has all other fields as well.
  -/
  | record {a : Layout} {name : TypeName} {held : Field Layout → Value}
      {pieceOf : Field Layout → List UInt8} (ha : a.recordName? = some name)
      (hfields : ∀ f ∈ p.present name, Occupies p f.layout (held f) (pieceOf f)) :
      Occupies p a
        (.record name (p.withDefaults name
          ((p.present name).foldl (fun m f => m.insert f.name (held f)) [])))
        ((p.present name).flatMap pieceOf)
  /-- An instance of a group begins with its tag. -/
  | subtypes {group : GroupName} {members : List (Member Layout)} {m : Member Layout} {v : Value}
      {tag bytes : List UInt8} (hm : m ∈ members) (htag : tag ≠ [])
      (h : Occupies p m.layout v bytes) : Occupies p (.subtypes group members) v (tag ++ bytes)

variable {p : Program} {room : Nat} {a : Layout} {readCall : TypeName → Decoder Value}

/-! ### What has bytes of its own -/

theorem ne_nil_of_le_length {n : Nat} {bytes : List UInt8} (h : n ≤ bytes.length) (hn : 1 ≤ n) :
    bytes ≠ [] :=
  List.ne_nil_of_length_pos (Nat.lt_of_lt_of_le hn h)

theorem one_le_length_count (n : Nat) : 1 ≤ ((Step.length n).bytes p.format).length :=
  Nat.le_trans (by split <;> decide) (plainSize_length_le n)

theorem one_le_length_tag (tag : UInt32) : 1 ≤ ((p.tagStep tag).bytes p.format).length :=
  Nat.le_trans (by split <;> decide) (plainSize_subtypes_le tag)

theorem occupies_primitive (q : Primitive) :
    (p.decodeLayout readCall (.primitive q)).Yields p.format (p.Occupies (.primitive q)) := by
  refine Primitive.yields_decode.mono ?_
  rintro v bytes ⟨x, -, rfl, hle, -⟩
  exact .primitive (ne_nil_of_le_length ((Primitive.minSize_le_length x).trans hle)
    Primitive.minSize_pos)

theorem occupies_text :
    (p.decodeLayout readCall .text).Yields p.format (p.Occupies .text) := by
  refine yields_decodeText.mono ?_
  rintro v bytes ⟨-, ⟨t, rfl⟩, hle, -⟩
  refine .text (ne_nil_of_le_length hle ?_)
  rw [textScript, Script.bytes_cons, List.length_append]
  exact Nat.le_add_right_of_le (one_le_length_count _)

theorem occupies_nullable {inner : Layout}
    (hboxed : ∀ q, inner = .primitive q → q.wrapped = true)
    (h : (p.decodeLayout readCall inner).Yields p.format (p.Occupies inner)) :
    (p.decodeLayout readCall (.nullable inner)).Yields p.format (p.Occupies (.nullable inner)) := by
  rw [decodeLayout]
  -- A packed boolean is its byte; otherwise the presence byte counts in any case.
  cases hpacked : p.packed? inner with
  | some wrapped =>
    obtain ⟨q, rfl, hkind, rfl⟩ := packed?_eq_some hpacked
    refine (yields_decodePacked hkind (hboxed q rfl)).mono ?_
    rintro v bytes ⟨-, rfl, rfl | ⟨b, rfl⟩⟩
    · rw [packedScript_of_isNull (Layout.isNull_nullValue _)]
      exact .null
    · rw [packedScript_box]
      exact .packed
  | none =>
    refine yields_readByte.bind ?_
    rintro byte bytes rfl
    by_cases hzero : byte = 0
    · rw [if_pos hzero]
      exact Yields.pure .null
    · rw [if_neg hzero]
      by_cases hone : byte = 1
      · rw [if_pos hone]
        exact h.mono fun v more hv => .present hv
      · rw [if_neg hone]
        exact Yields.throw _

/-- **Lists.** The count stands up to the bytes that the members occupy. -/
theorem occupies_list {member : Layout}
    (hsize : (p.decodeLayout readCall member).Yields p.format fun _ bytes =>
      p.minSize member ≤ bytes.length)
    (h : (p.decodeLayout readCall member).Yields p.format (p.Occupies member)) :
    (p.decodeLayout readCall (.list member)).Yields p.format (p.Occupies (.list member)) := by
  rw [decodeLayout_list]
  refine yields_readLength.bind ?_
  rintro n counted ⟨hn, hle, -⟩ r v r' hr hd
  -- The count passed the limit, which is computed from the bytes behind it.
  obtain ⟨hlimit, hd⟩ := decodeCounted_eq_ok_iff.1 hd
  obtain ⟨vs, r₁, hvs, hv⟩ := Decoder.bind_eq_ok_iff.1 hd
  cases hv
  obtain ⟨bytes, hbytes, rfl, hlength, pieces, rfl, hall⟩ :=
    (h.and hsize).replicate n r vs r' hr hvs
  subst hlength
  obtain ⟨hlength, hmembers⟩ := List.forall₂_iff_zip.1 (hall.imp fun _ _ hx => hx.1)
  -- Each member took at least its least size, so the pieces are as long as the limit presumes.
  have hpieces : ∀ piece ∈ pieces, p.minSize member ≤ piece.length := by
    intro piece hpiece
    obtain ⟨_, -, -, hle⟩ := exists_mem_of_forall₂_right hall hpiece
    exact hle
  have htotal := mul_le_length_flatten hpieces
  rw [← hlength] at htotal
  exact ⟨pieces.flatten, hbytes, rfl, .list (ne_nil_of_le_length hle (one_le_length_count _))
    hlength (fun _ _ hx => hmembers hx) hpieces
    (le_countLimit_of_le hlimit htotal (Nat.le_refl _))⟩

theorem occupies_decodeBody (hp : p.Proper) {name : TypeName}
    (h : ∀ f ∈ p.present name,
      (p.decodeLayout readCall f.layout).Yields p.format (p.Occupies f.layout)) :
    (p.decodeBody readCall name).Yields p.format (p.Occupies (.reference name)) := by
  unfold decodeBody
  refine (yields_decodeFields (hp.nodup_present name) h []).bind ?_
  rintro m bytes ⟨held, pieceOf, rfl, rfl, hall⟩
  refine Yields.pure ?_
  rw [List.append_nil]
  exact .record rfl hall

/-- However a record is laid out, it occupies the same bytes. -/
theorem Occupies.of_recordName? {b : Layout} {v : Value} {bytes : List UInt8} {name : TypeName}
    (h : p.Occupies a v bytes) (ha : a.recordName? = some name) (hb : b.recordName? = some name) :
    p.Occupies b v bytes := by
  cases h with
  | record ha' hfields =>
    cases ha.symm.trans ha'
    exact .record hb hfields
  | _ => cases ha

theorem occupies_subtypes {group : GroupName} {members : List (Member Layout)}
    (h : ∀ m ∈ members, (p.decodeLayout readCall m.layout).Yields p.format (p.Occupies m.layout)) :
    (p.decodeLayout readCall (.subtypes group members)).Yields p.format
      (p.Occupies (.subtypes group members)) := by
  rw [decodeLayout]
  refine yields_readTag.bind fun tag bytes htag => ?_
  -- The tag takes at least one byte.
  have hbytes : bytes ≠ [] := ne_nil_of_le_length htag.1 (one_le_length_tag tag)
  split
  · next d hd =>
    obtain ⟨m, hm, -, rfl⟩ := exists_of_decodeMember?_eq_some hd
    exact (h m hm).mono fun v more hv => .subtypes hm hbytes hv
  · exact Yields.throw _

/-! ### Putting the pieces together -/

theorem occupies_decodeLayout_of (hp : p.Proper) (ha : a.Proper p.tagEncoding)
    (hrecord : ∀ name, (p.decodeRecord room name).Yields p.format (p.Occupies (.reference name))) :
    (p.decodeLayout (p.decodeRecord room) a).Yields p.format (p.Occupies a) := by
  have hcall {b : Layout} {name : TypeName} (hb : b.recordName? = some name) :
      (p.decodeLayout (p.decodeRecord room) b).Yields p.format (p.Occupies b) := by
    rw [decodeLayout_of_recordName? hb]
    exact (hrecord name).mono fun v bytes hv => hv.of_recordName? rfl hb
  -- By induction on the layout; records are read as the caller says.
  induction a with
  | primitive q => exact occupies_primitive q
  | text => exact occupies_text
  | nullable inner ih => exact occupies_nullable ha.2.1 (ih ha.2.2)
  | list member ih => exact occupies_list (yields_minSize_le hp ha) (ih ha)
  | record name fields => exact hcall rfl
  | reference name => exact hcall rfl
  | subtypes group members => exact occupies_subtypes fun m hm => hcall (ha.2.2 m hm).2

theorem occupies_decodeRecord (hp : p.Proper) (name : TypeName) :
    (p.decodeRecord room name).Yields p.format (p.Occupies (.reference name)) := by
  induction room generalizing name with
  | zero => exact Yields.throw _
  | succ room ih =>
    exact (occupies_decodeBody hp fun f hf => occupies_decodeLayout_of hp (hp.present hf) ih).nested

/-- **Whatever is decoded occupies the bytes that have been read.** -/
theorem occupies_decodeLayout (hp : p.Proper) (ha : a.Proper p.tagEncoding) :
    (p.decodeLayout (p.decodeRecord room) a).Yields p.format (p.Occupies a) :=
  occupies_decodeLayout_of hp ha (occupies_decodeRecord hp)

end Program

end SchemaWire

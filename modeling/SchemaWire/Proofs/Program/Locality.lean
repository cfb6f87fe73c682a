import SchemaWire.Proofs.Lists
import SchemaWire.Proofs.Program.Soundness
import SchemaWire.Proofs.Wire.Locality
/-!
# Values that depend on nothing but their bytes

The decoder of a program is local (`Program.local_decodeLayout`): what it reads is decided by the
bytes that it consumes, and no input that ends among them is read at all.

Node by node this follows from the pieces that a node is read in, except for lists. The decoder of a
list holds the count against all of the input that is left, members and whatever comes behind them
alike. That makes no difference, since every member that is read takes at least the least size of
its layout (`Program.yields_minSize_le`): where all members are there, the count is not refused.
-/

namespace SchemaWire

open Decoder

theorem Primitive.local_decode {q : Primitive} {format wire : WireFormat} :
    (q.decode format).Local wire := by
  unfold Primitive.decode
  split
  · exact (local_readVarint q.kind.varintBits_le).bind fun u =>
      (local_ofExcept (q.kind.ofWord u)).map q.box
  · exact (local_readFixed q.kind.width).bind fun n =>
      (local_ofExcept (q.kind.ofBits n)).map q.box

namespace Program

variable {p : Program} {room : Nat} {a : Layout} {format : WireFormat}

theorem local_readTag : p.readTag.Local format := by
  unfold readTag
  cases p.tagEncoding with
  | u8 => exact (local_readFixed 1).map UInt32.ofNat
  | u16 => exact (local_readFixed 2).map UInt32.ofNat
  | varint => exact (local_readVarint (by decide)).map UInt64.toUInt32

theorem local_decodeText : decodeText.Local format := by
  unfold decodeText
  refine local_readLength.bind fun n => (local_take n).bind fun bytes => ?_
  split
  · exact Local.pure _
  · exact Local.throw _

theorem local_decodePacked (wrapped : Bool) : (decodePacked wrapped).Local format := by
  unfold decodePacked
  refine local_readByte.bind fun byte => ?_
  split
  · exact Local.pure _
  · exact Local.pure _
  · exact Local.pure _
  · exact Local.throw _

theorem local_nullable {readCall : TypeName → Decoder Value} {inner : Layout}
    (h : (p.decodeLayout readCall inner).Local format) :
    (p.decodeLayout readCall (.nullable inner)).Local format := by
  -- The first byte decides how much more is needed.
  rw [decodeLayout]
  cases p.packed? inner with
  | some wrapped => exact local_decodePacked wrapped
  | none =>
    refine local_readByte.bind fun byte => ?_
    split
    · exact Local.pure _
    · split
      · exact h
      · exact Local.throw _

/-! ### Lists -/

/-- **A member that is read takes its least size**, as it takes at least the bytes that it would be
written in. -/
theorem yields_minSize_le (hp : p.Proper) (ha : a.Proper p.tagEncoding) :
    (p.decodeLayout (p.decodeRecord room) a).Yields p.format fun _ bytes =>
      p.minSize a ≤ bytes.length := by
  refine (yields_decodeLayout hp ha).mono fun v bytes hv => ?_
  calc p.minSize a ≤ ((p.layoutScript (p.recordScript room) a v).bytes p.format).length :=
      minSize_le_length hv.valid
    _ ≤ bytes.length := hv.retraces.1

/-- A count that is held by one input is held by every other one that has room for the members. -/
theorem le_countLimit_of_le {member : Layout} {n size remaining remaining' : Nat}
    (h : n ≤ p.countLimit member remaining) (hsize : n * p.minSize member ≤ size)
    (hroom : size ≤ remaining') : n ≤ p.countLimit member remaining' := by
  unfold countLimit at *
  by_cases hzero : p.minSize member = 0
  · simpa only [if_pos hzero] using h
  · rw [if_neg hzero, Nat.le_div_iff_mul_le (Nat.pos_of_ne_zero hzero)]
    exact hsize.trans hroom

/-- Pieces of at least some size each have so many times as many bytes together. -/
theorem mul_le_length_flatten {size : Nat} {pieces : List (List UInt8)}
    (h : ∀ piece ∈ pieces, size ≤ piece.length) :
    pieces.length * size ≤ pieces.flatten.length := by
  have hsum := List.card_nsmul_le_sum (pieces.map List.length) size fun k hk => by
    obtain ⟨piece, hpiece, rfl⟩ := List.mem_map.1 hk
    exact h piece hpiece
  rwa [List.length_map, Nat.nsmul_eq_mul, ← List.length_flatten] at hsum

/-- Members that take a number of bytes each take so many times as many together. -/
theorem yields_replicate_mul_le {α : Type} {d : Decoder α} {size : Nat}
    (hd : d.Yields format fun _ bytes => size ≤ bytes.length) (n : Nat) :
    (Decoder.replicate n d).Yields format fun _ bytes => n * size ≤ bytes.length := by
  refine (hd.replicate n).mono ?_
  rintro xs _ ⟨hlength, pieces, rfl, hall⟩
  have htotal := mul_le_length_flatten fun piece hpiece => by
    obtain ⟨_, -, hle⟩ := exists_mem_of_forall₂_right hall hpiece
    exact hle
  rwa [← hall.length_eq, hlength] at htotal

theorem local_list {readCall : TypeName → Decoder Value} {member : Layout}
    (hsize : (p.decodeLayout readCall member).Yields format fun _ bytes =>
      p.minSize member ≤ bytes.length)
    (h : (p.decodeLayout readCall member).Local format) :
    (p.decodeLayout readCall (.list member)).Local format := by
  rw [decodeLayout_list]
  refine local_readLength.bind fun n => ?_
  intro r v r' hr hd
  have hmembers : (do return .list (← Decoder.replicate n (p.decodeLayout readCall member)) :
      Decoder Value).Local format := (h.replicate n).map Value.list
  have htotal : (do return .list (← Decoder.replicate n (p.decodeLayout readCall member)) :
      Decoder Value).Yields format fun _ bytes => n * p.minSize member ≤ bytes.length :=
    (yields_replicate_mul_le hsize n).bind fun vs bytes hle => Yields.pure (by
      rwa [List.append_nil])
  obtain ⟨hlimit, hd⟩ := decodeCounted_eq_ok_iff.1 hd
  obtain ⟨bytes, hbytes, rfl, hneeds, hroom⟩ := (hmembers.and htotal) r v r' hr hd
  refine ⟨bytes, hbytes, rfl, fun s hs hahead => ?_, fun s hs hahead hlt => ?_⟩
  · -- All members are there, whatever follows them, so their number is not refused.
    have hlimit' : n ≤ p.countLimit member s.remaining :=
      le_countLimit_of_le hlimit hroom (s.remaining_eq ▸ hahead.length_le)
    rw [decodeCounted_of_le hlimit']
    exact hneeds.reads s hs hahead
  · -- A short input may be found out by the count already, and by the members at the latest.
    rw [decodeCounted_apply]
    by_cases hlimit' : n ≤ p.countLimit member s.remaining
    · rw [if_pos hlimit']
      exact hneeds.short s hs hahead hlt
    · rw [if_neg hlimit']
      exact ⟨_, s, rfl, trivial⟩

/-! ### Records and groups -/

theorem local_decodeFields {readCall : TypeName → Decoder Value} {fields : List (Field Layout)}
    (h : ∀ f ∈ fields, (p.decodeLayout readCall f.layout).Local format) (done : FieldMap Value) :
    (p.decodeFields readCall fields done).Local format := by
  induction fields generalizing done with
  | nil => exact Local.pure done
  | cons f fields ih =>
    obtain ⟨hf, hfields⟩ := List.forall_mem_cons.1 h
    exact hf.bind fun v => ih hfields _

theorem local_decodeBody {readCall : TypeName → Decoder Value} {name : TypeName}
    (h : ∀ f ∈ p.present name, (p.decodeLayout readCall f.layout).Local format) :
    (p.decodeBody readCall name).Local format :=
  (local_decodeFields h []).map fun fields => Value.record name (p.withDefaults name fields)

theorem local_subtypes {readCall : TypeName → Decoder Value} {group : GroupName}
    {members : List (Member Layout)}
    (h : ∀ m ∈ members, (p.decodeLayout readCall m.layout).Local format) :
    (p.decodeLayout readCall (.subtypes group members)).Local format := by
  rw [decodeLayout]
  refine local_readTag.bind fun tag => ?_
  split
  · next d hd =>
    obtain ⟨m, hm, -, rfl⟩ := exists_of_decodeMember?_eq_some hd
    exact h m hm
  · exact Local.throw _

/-! ### Putting the pieces together -/

/-- **A value is local, if the records in it are.** -/
theorem local_decodeLayout_of (hp : p.Proper) (ha : a.Proper p.tagEncoding)
    (hrecord : ∀ name, (p.decodeRecord room name).Local p.format) :
    (p.decodeLayout (p.decodeRecord room) a).Local p.format := by
  -- By induction on the layout; the members of a list take at least their least size, which the
  -- limit counts on.
  induction a with
  | primitive q => exact Primitive.local_decode
  | text => exact local_decodeText
  | nullable inner ih => exact local_nullable (ih ha.2.2)
  | list member ih => exact local_list (yields_minSize_le hp ha) (ih ha)
  | record name fields => exact hrecord name
  | reference name => exact hrecord name
  | subtypes group members =>
    refine local_subtypes fun m hm => ?_
    rw [decodeLayout_of_recordName? (ha.2.2 m hm).2]
    exact hrecord m.type

/-- **A record is local**, by induction on the records that may be nested in it. -/
theorem local_decodeRecord (hp : p.Proper) (name : TypeName) :
    (p.decodeRecord room name).Local p.format := by
  induction room generalizing name with
  | zero => exact Local.throw _
  | succ room ih =>
    exact (local_decodeBody fun f hf => local_decodeLayout_of hp (hp.present hf) ih).nested

/-- **Locality of decoding.** What a program reads is decided by the bytes that it consumes. -/
theorem local_decodeLayout (hp : p.Proper) (ha : a.Proper p.tagEncoding) :
    (p.decodeLayout (p.decodeRecord room) a).Local p.format :=
  local_decodeLayout_of hp ha (local_decodeRecord hp)

end Program

end SchemaWire

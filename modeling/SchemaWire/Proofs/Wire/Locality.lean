import Mathlib.Data.List.Infix
import SchemaWire.Proofs.Wire.Varint
/-!
# Decoders that depend on nothing but what they consume

A decoder is **local** (`Decoder.Local`) if the bytes that it has read a value from decide
everything. Wherever they lie ahead of a reader, the same value is read from exactly these bytes,
whatever comes behind them; and where the input ends before they do, nothing is read at all, but the
input is found too short (`DecodeError.IsShortage`). `Decoder.Needs` is this statement about one
value and its bytes.

The judgement composes like `Decoder.Reads` and `Decoder.Yields`, whose two halves it joins: along
`>>=` (`Decoder.Local.bind`), along the reading of members (`Decoder.Local.replicate`) and into
records (`Decoder.Local.nested`). A decoder that looks at more of the input than it consumes, such
as one that compares a count with the bytes that are left, has to be dealt with by itself.
-/

namespace SchemaWire

/-- The input has been found too short: a piece is not all there, or a list has more members than
the rest of the input can hold. -/
def DecodeError.IsShortage : DecodeError → Prop
  | .truncated _ _ _ | .listTooLong _ _ => True
  | _ => False

/-! ### At the end of the input -/

namespace Reader

theorem take_eq_error {r : Reader} {n : Nat} (h : r.ahead.length < n) :
    take n r = .error (.truncated r.position n r.remaining) r := by
  rw [← r.remaining_eq] at h
  exact if_neg (Nat.not_le.2 h)

theorem readByte_eq_error {r : Reader} (h : r.ahead = []) :
    readByte r = .error (.truncated r.position 1 r.remaining) r := by
  unfold readByte
  split
  · rfl
  · next h' => rw [h] at h'; cases h'

theorem readGroups_eq_error {bits left : Nat} {u : UInt64} {r : Reader} (h : r.ahead = []) :
    readGroups bits (left + 1) u r = .error (.truncated r.position 1 r.remaining) r := by
  rw [readGroups, Decoder.bind_apply, readByte_eq_error h]

end Reader

namespace Decoder

variable {α β : Type} {format : WireFormat}

/-- **These bytes and no fewer.** Wherever the bytes lie ahead, the decoder reads `x` from exactly
them; an input that ends before they do is too short. -/
structure Needs (d : Decoder α) (format : WireFormat) (bytes : List UInt8) (x : α) : Prop where
  reads : d.Reads format bytes x
  short : ∀ r : Reader, r.format = format → r.ahead <+: bytes → r.ahead.length < bytes.length →
    ∃ e r', d r = .error e r' ∧ e.IsShortage

/-- **Locality.** Whatever is read is decided by the bytes that it is read from. -/
def Local (d : Decoder α) (format : WireFormat) : Prop :=
  d.Yields format fun x bytes => d.Needs format bytes x

/-! ### Composition -/

/-- What a decoder consumes is determined by where it stops, so two statements about it are about
the same bytes. -/
theorem Yields.and {d : Decoder α} {P Q : α → List UInt8 → Prop} (hP : d.Yields format P)
    (hQ : d.Yields format Q) : d.Yields format fun x bytes => P x bytes ∧ Q x bytes := by
  intro r x r' hr h
  obtain ⟨bytes, hbytes, rfl, hPx⟩ := hP r x r' hr h
  obtain ⟨again, hagain, hstop, hQx⟩ := hQ r x _ hr h
  -- Both have stopped at the same place, so they have read the same bytes.
  have hlength : bytes.length = again.length := by
    have hposition := congrArg Reader.position hstop
    simp only [Reader.advance_position] at hposition
    omega
  have hsame : bytes = again := by
    rw [List.prefix_iff_eq_take.1 hbytes, List.prefix_iff_eq_take.1 hagain, hlength]
  exact ⟨bytes, hbytes, rfl, hPx, hsame ▸ hQx⟩

theorem Needs.pure (x : α) : Needs (Pure.pure x) format [] x :=
  ⟨Reads.pure x, fun _ _ _ h => absurd h (Nat.not_lt_zero _)⟩

theorem Needs.bind {d : Decoder α} {f : α → Decoder β} {bytes more : List UInt8} {x : α} {y : β}
    (hd : d.Needs format bytes x) (hf : (f x).Needs format more y) :
    (d >>= f).Needs format (bytes ++ more) y where
  reads := hd.reads.bind hf.reads
  short r hr hahead hlt := by
    rw [bind_apply]
    by_cases hfirst : r.ahead.length < bytes.length
    · have hbefore : r.ahead <+: bytes :=
        List.prefix_of_prefix_length_le hahead (List.prefix_append _ _) (Nat.le_of_lt hfirst)
      obtain ⟨e, r', he, hshort⟩ := hd.short r hr hbefore hfirst
      exact ⟨e, r', by rw [he], hshort⟩
    · -- The bytes of the first step are all there, so the second one runs short.
      have hall : bytes <+: r.ahead :=
        List.prefix_of_prefix_length_le (List.prefix_append _ _) hahead (Nat.not_lt.1 hfirst)
      have hrest : (r.advance bytes.length).ahead <+: more := by
        have := hahead.drop bytes.length
        rwa [List.drop_left] at this
      rw [hd.reads r hr hall]
      refine hf.short (r.advance bytes.length) hr hrest ?_
      rw [List.length_append] at hlt
      rw [Reader.advance_ahead, List.length_drop]
      omega

theorem Local.pure (x : α) : Local (Pure.pure x) format := Yields.pure (Needs.pure x)

theorem Local.throw (e : DecodeError) : Local (MonadExcept.throw e : Decoder α) format :=
  Yields.throw e

theorem local_ofExcept (e : Except DecodeError α) : Local (ofExcept e) format := by
  cases e with
  | ok x => exact Local.pure x
  | error e => exact Local.throw e

theorem Local.bind {d : Decoder α} {f : α → Decoder β} (hd : d.Local format)
    (hf : ∀ x, (f x).Local format) : (d >>= f).Local format :=
  Yields.bind hd fun x _ hx => (hf x).mono fun _ _ hy => hx.bind hy

theorem Local.map {d : Decoder α} (hd : d.Local format) (f : α → β) :
    Local (do return f (← d)) format :=
  hd.bind fun x => Local.pure (f x)

/-- Locality is a statement about the readers of one format. -/
theorem Local.congr {d d' : Decoder α} (hd : d'.Local format)
    (h : ∀ r : Reader, r.format = format → d r = d' r) : d.Local format := by
  intro r x r' hr hx
  rw [h r hr] at hx
  obtain ⟨bytes, hbytes, hr', hneeds⟩ := hd r x r' hr hx
  -- Whatever is asked of the first decoder is answered by the second one.
  refine ⟨bytes, hbytes, hr', fun s hs hahead => ?_, fun s hs hahead hlt => ?_⟩
  · rw [h s hs]
    exact hneeds.reads s hs hahead
  · rw [h s hs]
    exact hneeds.short s hs hahead hlt

/-- Members are local one by one, so all of them are together. -/
theorem Local.repeatInto {d : Decoder α} (hd : d.Local format) (n : Nat) (done : List α) :
    (d.repeatInto n done).Local format := by
  induction n generalizing done with
  | zero => exact Local.pure done.reverse
  | succ n ih => exact hd.bind fun x => ih (x :: done)

theorem Local.replicate {d : Decoder α} (hd : d.Local format) (n : Nat) :
    (Decoder.replicate n d).Local format :=
  hd.repeatInto n []

theorem Local.nested {d : Decoder α} (hd : d.Local format) :
    Local (do Reader.descend; let x ← d; Reader.ascend; return x) format := by
  refine Yields.mono (Yields.nested hd) fun x bytes hx => ⟨hx.reads.nested, ?_⟩
  intro r hr hahead hlt
  obtain ⟨e, r', he, hshort⟩ := hx.short { r with depth := r.depth + 1 } hr hahead hlt
  exact ⟨e, r', by rw [nested_apply, he], hshort⟩

/-! ### Bytes and numbers -/

theorem local_take (n : Nat) : (Reader.take n).Local format := by
  refine (yields_take n).mono ?_
  rintro bytes _ ⟨hlength, rfl⟩
  exact ⟨reads_take hlength, fun r _ _ hlt =>
    ⟨_, r, Reader.take_eq_error (hlength ▸ hlt), trivial⟩⟩

theorem local_readByte : Reader.readByte.Local format := by
  refine yields_readByte.mono ?_
  rintro b _ rfl
  refine ⟨reads_readByte b, fun r _ _ hlt => ?_⟩
  have hnone : r.ahead = [] := List.eq_nil_of_length_eq_zero (Nat.lt_one_iff.1 hlt)
  exact ⟨_, r, Reader.readByte_eq_error hnone, trivial⟩

theorem local_readFixed (width : Nat) : (Reader.readFixed width).Local format := by
  refine (yields_readFixed width).mono ?_
  rintro n _ ⟨hn, rfl⟩
  refine ⟨reads_readFixed hn, fun r hr hahead hlt => ?_⟩
  -- The number is made of bytes that have been taken, and these are not all there.
  rw [ByteOrder.length_bytes] at hlt
  unfold Reader.readFixed
  rw [bind_apply, Reader.take_eq_error hlt]
  exact ⟨_, r, rfl, trivial⟩

end Decoder

namespace Reader

open Varint

/-- Groups of which the last one is missing come to an end of the input. The induction is on the
groups, all of which but the last announce another one. -/
theorem readGroups_eq_error_of_terminated {bits left : Nat} {u : UInt64} {bs : List UInt8}
    {r : Reader} (hbs : Terminated bs) (hlength : bs.length ≤ left) (hahead : r.ahead <+: bs)
    (hlt : r.ahead.length < bs.length) :
    ∃ e r', readGroups bits left u r = .error e r' ∧ e.IsShortage := by
  -- By induction on the spelling: cut at any place, the reader runs out of bytes before the last
  -- group.
  induction hbs generalizing left u r with
  | @last b low =>
    have hnone : r.ahead = [] := List.eq_nil_of_length_eq_zero (Nat.lt_one_iff.1 hlt)
    obtain ⟨left, rfl⟩ : ∃ k, left = k + 1 := ⟨left - 1, by simp at hlength; omega⟩
    exact ⟨_, r, readGroups_eq_error hnone, trivial⟩
  | @more b bs marked hbs ih =>
    rw [List.length_cons] at hlength hlt
    obtain ⟨left, rfl⟩ : ∃ k, left = k + 1 := ⟨left - 1, by omega⟩
    cases hr : r.ahead with
    | nil => exact ⟨_, r, readGroups_eq_error hr, trivial⟩
    | cons c rest =>
      rw [hr] at hahead hlt
      obtain ⟨rfl, hrest⟩ := List.cons_prefix_cons.1 hahead
      have hmore := List.length_pos_of_ne_nil hbs.ne_nil
      have hdrop : (r.advance 1).ahead = rest := by simp [hr]
      rw [readGroups_succ hr, if_neg (by omega), if_neg (by omega)]
      refine ih (by omega) (hdrop ▸ hrest) ?_
      rw [hdrop]
      simpa using hlt

end Reader

namespace Decoder

variable {format : WireFormat}

theorem local_readVarint {bits : Nat} (hbits : bits ≤ 64) :
    (Reader.readVarint bits).Local format := by
  intro r u r' _ h
  obtain ⟨bs, hbs, hlength, hr, hr', hu, hlt⟩ := Reader.terminated_of_readVarint hbits h
  refine ⟨bs, hr, hr', fun s _ hahead => ?_, fun s _ hahead hshort => ?_⟩
  · rw [Reader.readVarint_eq_of_terminated hbits hbs hlength hahead, if_pos hlt, ← hu,
      UInt64.ofNat_toNat]
  · exact Reader.readGroups_eq_error_of_terminated hbs hlength hahead hshort

theorem local_readLength : Reader.readLength.Local format := by
  refine Local.congr ?_ fun _ hr => Reader.readLength_eq hr
  split
  · exact (local_readVarint (by decide)).map UInt64.toNat
  · exact local_readFixed 4

end Decoder

end SchemaWire

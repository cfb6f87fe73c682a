import SchemaWire.Proofs.Wire.Script
import SchemaWire.Proofs.Wire.Varint
/-!
# All answers of the varint reader

What the reader of varints comes to on every input, at every width of up to 64 bits. Of the next ten
bytes, the first one without a mark ends the varint (`Varint.groupCount?`). If there is one, the
answer is the number that the groups up to it denote, or an overflow where that does not fit. If
there is none, all there is has been read in vain: the input ends too early if it has less than ten
bytes, and goes on for too long otherwise.

`Reader.varintAnswer` says this as a function of the input, without a loop and in natural numbers,
and `Reader.readVarint_eq_varintAnswer` that the reader, which goes byte by byte and keeps to 64-bit
words, comes to the same. The words are no obstacle: of a varint that is accepted, no group is moved
beyond the word (`Varint.toNat_shiftLeft_group`).
-/

namespace SchemaWire

namespace Varint

/-- The number of bytes up to the first one without a mark, among the next ten. -/
def groupCount? (bs : List UInt8) : Option Nat :=
  ((bs.take maxSize).findIdx? fun b => b.toNat < 128).map (· + 1)

/-- The bytes up to the first one without a mark are terminated. -/
theorem terminated_of_findIdx? {bs : List UInt8} {n i : Nat}
    (h : (bs.take n).findIdx? (fun b => b.toNat < 128) = some i) :
    Terminated (bs.take (i + 1)) ∧ (bs.take (i + 1)).length = i + 1 ∧ i + 1 ≤ n := by
  -- Along the bytes: all before the first byte without the mark carry it.
  induction bs generalizing n i with
  | nil =>
    rw [List.take_nil] at h
    cases h
  | cons b bs ih =>
    cases n with
    | zero => cases h
    | succ n =>
      rw [List.take_succ_cons, List.findIdx?_cons] at h
      by_cases hb : b.toNat < 128
      · simp only [hb, decide_true, if_true, Option.some.injEq] at h
        subst h
        exact ⟨.last hb, rfl, Nat.succ_le_succ (Nat.zero_le n)⟩
      · simp only [hb, decide_false] at h
        obtain ⟨j, hj, rfl⟩ := Option.map_eq_some_iff.1 h
        obtain ⟨hterminated, hlength, hle⟩ := ih hj
        refine ⟨.more (Nat.not_lt.1 hb) hterminated, ?_, Nat.succ_le_succ hle⟩
        rw [List.take_succ_cons, List.length_cons, hlength]

theorem terminated_of_groupCount? {bs : List UInt8} {n : Nat} (h : groupCount? bs = some n) :
    Terminated (bs.take n) ∧ (bs.take n).length = n ∧ n ≤ maxSize := by
  obtain ⟨i, hi, rfl⟩ := Option.map_eq_some_iff.1 h
  exact terminated_of_findIdx? hi

theorem groupCount?_eq_none_iff {bs : List UInt8} :
    groupCount? bs = none ↔ ∀ b ∈ bs.take maxSize, 128 ≤ b.toNat := by
  rw [groupCount?, Option.map_eq_none_iff, List.findIdx?_eq_none_iff]
  simp only [decide_eq_false_iff_not, Nat.not_lt]

/-- Each group is a part of the number. -/
theorem group_mul_le_number {bs : List UInt8} {i : Nat} {b : UInt8} (h : bs[i]? = some b) :
    b.toNat % 128 * 128 ^ i ≤ number bs := by
  -- The group is one term of the sum that makes up the number.
  induction bs generalizing i with
  | nil => cases h
  | cons c bs ih =>
    rw [number]
    cases i with
    | zero =>
      cases h
      rw [Nat.pow_zero, Nat.mul_one]
      exact Nat.le_add_right _ _
    | succ i =>
      have hle := Nat.mul_le_mul_left 128 (ih h)
      rw [Nat.pow_succ, ← Nat.mul_assoc, Nat.mul_comm _ 128]
      exact Nat.le_add_left_of_le hle

/-- **No shift loses bits** of a group in a number that fits a word. -/
theorem toNat_shiftLeft_group {bs : List UInt8} {i : Nat} {b : UInt8} (hi : i < maxSize)
    (h : bs[i]? = some b) (hfits : number bs < 2 ^ 64) :
    ((b &&& 0x7f).toUInt64 <<< UInt64.ofNat (7 * i)).toNat = b.toNat % 128 * 128 ^ i := by
  -- The group is a part of a number that fits, so no bit of it is lost.
  have hroom := Nat.lt_of_le_of_lt (group_mul_le_number h) hfits
  rw [show (128 : Nat) ^ i = 2 ^ (7 * i) by rw [Nat.pow_mul]] at hroom ⊢
  have hshift : (UInt64.ofNat (7 * i)).toNat % 64 = 7 * i := by
    unfold maxSize at hi
    rw [UInt64.toNat_ofNat']
    omega
  rw [UInt64.toNat_shiftLeft, toNat_group, hshift, Nat.shiftLeft_eq, Nat.mod_eq_of_lt hroom]

end Varint

namespace Reader

open Varint

variable {bits left : Nat} {u w : UInt64} {r r' : Reader}

/-! ### Inputs without an end -/

/-- **Groups without an end.** As many are read as there may be, unless the input ends before
that. -/
theorem readGroups_of_marked (h : ∀ b ∈ r.ahead.take left, 128 ≤ b.toNat) :
    readGroups bits left u r =
      if r.remaining < left then
        .error (.truncated (r.position + r.remaining) 1 0) (r.advance r.remaining)
      else .error (.varintOverflow bits) (r.advance left) := by
  -- By induction on the groups that are left: either the input ends first or they do.
  induction left generalizing u r with
  | zero =>
    rw [if_neg (Nat.not_lt_zero _), advance_zero]
    rfl
  | succ left ih =>
    cases hahead : r.ahead with
    | nil =>
      have hremaining : r.remaining = 0 := by rw [r.remaining_eq, hahead, List.length_nil]
      have hbyte : readByte r = .error (.truncated r.position 1 r.remaining) r := by
        unfold readByte
        split
        · rfl
        · next h' => rw [hahead] at h'; cases h'
      rw [readGroups, Decoder.bind_apply, hbyte, hremaining, if_pos (Nat.succ_pos left),
        Nat.add_zero, advance_zero]
    | cons b bs =>
      rw [hahead, List.take_succ_cons] at h
      obtain ⟨hb, hbs⟩ := List.forall_mem_cons.1 h
      have hremaining : r.remaining = (r.advance 1).remaining + 1 := by
        rw [remaining_eq, remaining_eq, advance_ahead, hahead]
        rfl
      rw [readGroups_succ hahead]
      by_cases hover : left = 0 ∧ 1 < b.toNat % 128
      · -- A tenth group may be refused before its mark is looked at.
        rw [if_pos hover]
        obtain ⟨rfl, -⟩ := hover
        rw [if_neg (by omega)]
      · rw [if_neg hover, if_neg (Nat.not_lt.2 hb), ih (by simpa [hahead] using hbs)]
        by_cases hshort : (r.advance 1).remaining < left
        · rw [if_pos hshort, if_pos (by omega), advance_advance, advance_position, hremaining,
            Nat.add_assoc, Nat.add_comm 1]
        · rw [if_neg hshort, if_neg (by omega), advance_advance, Nat.add_comm 1]

/-! ### Widths beyond the word -/

/-- Asking for more bits than a word has does not change what is read. -/
theorem readGroups_of_le (hbits : 64 ≤ bits) (h : readGroups 64 left u r = .ok w r') :
    readGroups bits left u r = .ok w r' := by
  -- More bits only take the final comparison away, which at 64 bits had not failed.
  induction left generalizing u r with
  | zero => cases h
  | succ left ih =>
    obtain ⟨bs, hbs, -, ⟨rest, hrest⟩, -⟩ := terminated_of_readGroups h
    -- Something was read, so there is a next byte for the second reader as well.
    obtain ⟨b, more, hahead⟩ : ∃ b more, r.ahead = b :: more :=
      List.exists_cons_of_ne_nil (by rw [← hrest]; simp [hbs.ne_nil])
    rw [readGroups_succ hahead] at h ⊢
    by_cases hover : left = 0 ∧ 1 < b.toNat % 128
    · rw [if_pos hover] at h
      cases h
    · rw [if_neg hover] at h ⊢
      by_cases low : b.toNat < 128
      · rw [if_pos low, if_neg fun hbig => absurd hbig.1 (Nat.lt_irrefl _)] at h
        rw [if_pos low, if_neg fun hbig => absurd hbig.1 (Nat.not_lt.2 hbits)]
        exact h
      · rw [if_neg low] at h ⊢
        exact ih h

/-- **A varint is read back** at every width that it fits, whatever follows it. -/
theorem readVarint_encode (bits : Nat) (hr : encode u <+: r.ahead) :
    readVarint bits r =
      if u.toNat < 2 ^ bits then .ok u (r.advance (size u))
      else .error (.varintOverflow bits) (r.advance (size u)) := by
  have hread {bits : Nat} (hbits : bits ≤ 64) : readVarint bits r =
      if u.toNat < 2 ^ bits then .ok u (r.advance (size u))
      else .error (.varintOverflow bits) (r.advance (size u)) := by
    have hlength : (encode u).length ≤ maxSize := length_encode u ▸ size_le u
    rw [readVarint_eq_of_terminated hbits (terminated_encode u) hlength hr, number_encode,
      UInt64.ofNat_toNat, length_encode]
  by_cases hbits : bits ≤ 64
  · exact hread hbits
  · -- Beyond 64 bits every word fits, and the reader no longer compares.
    have hwide : 64 ≤ bits := Nat.le_of_not_le hbits
    have hfits : u.toNat < 2 ^ bits :=
      Nat.lt_of_lt_of_le u.toNat_lt (Nat.pow_le_pow_right (by decide) hwide)
    rw [if_pos hfits]
    exact readGroups_of_le hwide ((hread (Nat.le_refl 64)).trans (if_pos u.toNat_lt))

/-! ### All inputs -/

/-- **The answer to an input**, said without a loop. -/
def varintAnswer (bits : Nat) (r : Reader) : EStateM.Result DecodeError Reader UInt64 :=
  match groupCount? r.ahead with
  | some n =>
    if number (r.ahead.take n) < 2 ^ bits then
      .ok (UInt64.ofNat (number (r.ahead.take n))) (r.advance n)
    else .error (.varintOverflow bits) (r.advance n)
  | none =>
    if r.remaining < maxSize then
      .error (.truncated (r.position + r.remaining) 1 0) (r.advance r.remaining)
    else .error (.varintOverflow bits) (r.advance maxSize)

/-- **The reader gives this answer.** -/
theorem readVarint_eq_varintAnswer (hbits : bits ≤ 64) (r : Reader) :
    readVarint bits r = varintAnswer bits r := by
  unfold varintAnswer
  -- Either a group without the mark stands among the next ten bytes, or none does.
  cases hcount : groupCount? r.ahead with
  | some n =>
    obtain ⟨hterminated, hlength, hle⟩ := terminated_of_groupCount? hcount
    have hread := readVarint_eq_of_terminated hbits hterminated (hlength.trans_le hle)
      (List.take_prefix n r.ahead)
    rwa [hlength] at hread
  | none => exact readGroups_of_marked (groupCount?_eq_none_iff.1 hcount)

/-- **An accepted value is read without loss**: it is the number of its groups, and each of them
lies within the word. -/
theorem number_of_readVarint (hbits : bits ≤ 64) (h : readVarint bits r = .ok u r') :
    ∃ n, groupCount? r.ahead = some n ∧ r' = r.advance n ∧
      u.toNat = number (r.ahead.take n) ∧
      ∀ i b, (r.ahead.take n)[i]? = some b →
        ((b &&& 0x7f).toUInt64 <<< UInt64.ofNat (7 * i)).toNat = b.toNat % 128 * 128 ^ i := by
  rw [readVarint_eq_varintAnswer hbits] at h
  unfold varintAnswer at h
  split at h
  · next n hcount =>
    obtain ⟨-, hlength, hle⟩ := terminated_of_groupCount? hcount
    split at h
    · next hlt =>
      cases h
      -- The number is below the bound, so no bit of any group has been shifted out.
      have hword : number (r.ahead.take n) < 2 ^ 64 :=
        Nat.lt_of_lt_of_le hlt (Nat.pow_le_pow_right (by decide) hbits)
      refine ⟨n, hcount, rfl, ?_, fun i b hb => ?_⟩
      · rw [UInt64.toNat_ofNat', Nat.mod_eq_of_lt hword]
      · obtain ⟨hi, -⟩ := List.getElem?_eq_some_iff.1 hb
        exact toNat_shiftLeft_group (by omega) hb hword
    · cases h
  · split at h <;> cases h

end Reader

namespace Varint

/-- **Varints are exact.**

* A word is written if its bytes have room, and then these are added and nothing else.
* They are as many as its size says, between one and ten, and denote it; nothing that denotes it is
  shorter.
* At every width they are read back, whatever follows them, or overflow if the word does not fit.
* At every width of up to 64 bits the answer to every input is known.
* What is accepted is read without loss. -/
theorem written_and_read_exactly :
    (∀ (u : UInt64) (w : Writer),
      ((∃ w', Writer.perform (.varint u) w = .ok () w') ↔
        w.position + size u ≤ w.buffer.size) ∧
      ∀ w', Writer.perform (.varint u) w = .ok () w' →
        w'.written.toList = w.written.toList ++ encode u ∧
          w'.position = w.position + size u) ∧
    (∀ u : UInt64, (encode u).length = size u ∧ 1 ≤ size u ∧ size u ≤ 10 ∧
      Terminated (encode u) ∧ number (encode u) = u.toNat ∧
      ∀ bs, Terminated bs → number bs = u.toNat → size u ≤ bs.length) ∧
    (∀ (u : UInt64) (bits : Nat) (r : Reader), encode u <+: r.ahead →
      Reader.readVarint bits r =
        if u.toNat < 2 ^ bits then .ok u (r.advance (size u))
        else .error (.varintOverflow bits) (r.advance (size u))) ∧
    (∀ bits ≤ 64, ∀ r, Reader.readVarint bits r = Reader.varintAnswer bits r) ∧
    ∀ bits ≤ 64, ∀ u r r', Reader.readVarint bits r = .ok u r' →
      ∃ n, groupCount? r.ahead = some n ∧ r' = r.advance n ∧
        u.toNat = number (r.ahead.take n) ∧
        ∀ i b, (r.ahead.take n)[i]? = some b →
          ((b &&& 0x7f).toUInt64 <<< UInt64.ofNat (7 * i)).toNat =
            b.toNat % 128 * 128 ^ i := by
  refine ⟨fun u w => ⟨?_, fun w' h => ?_⟩, fun u => ?_,
    fun u bits r => Reader.readVarint_encode bits,
    fun bits hbits r => Reader.readVarint_eq_varintAnswer hbits r,
    fun bits hbits u r r' => Reader.number_of_readVarint hbits⟩
  · rw [Writer.exists_perform_eq_ok_iff]
    exact (and_iff_right trivial).trans (by rw [Step.bytes, length_encode])
  · obtain ⟨-, hoffset, -, hwritten⟩ := Writer.perform_eq_ok h
    -- The offset moves by what was written, since both parts have the length of the output.
    have hsize := congrArg List.length hwritten
    rw [List.length_append, Array.length_toList, Array.length_toList, Step.bytes,
      length_encode] at hsize
    refine ⟨hwritten, ?_⟩
    rw [Writer.position, Writer.position, hoffset, hsize, Nat.add_assoc]
  · exact ⟨length_encode u, size_pos u, size_le u, terminated_encode u, number_encode u,
      fun bs hbs hu => size_le_length hbs hu.symm⟩

/-- Three hundred takes nine bits and two bytes. -/
theorem written_and_read_exactly_three_hundred :
    let w : Writer := ⟨#[0, 0, 0], 0, #[], Level.level3.format, 0, by decide⟩
    let r : Reader := ⟨[0xac, 0x02, 7], 0, 3, Level.level3.format, 0, rfl⟩
    (∃ w', Writer.perform (.varint 300) w = .ok () w' ∧ w'.written.toList = [0xac, 0x02]) ∧
      Reader.readVarint 9 r = .ok 300 (r.advance 2) ∧
      Reader.readVarint 8 r = .error (.varintOverflow 8) (r.advance 2) ∧
      (300 : UInt64).toNat = number [0xac, 0x02] ∧ ∀ bs, Terminated bs → number bs = 300 →
        2 ≤ bs.length := by
  intro w r
  obtain ⟨hwritten, hsize, hback, hanswer, hexact⟩ := written_and_read_exactly
  -- 300 is 2 * 128 + 44, so it takes two groups and nine bits.
  have hbytes : encode 300 = [0xac, 0x02] := by decide
  obtain ⟨w', hw'⟩ := (hwritten 300 w).1.2 (by decide)
  have hread : Reader.readVarint 9 r = .ok 300 (r.advance 2) :=
    hback 300 9 r ⟨[7], rfl⟩
  obtain ⟨n, hn, -, hnumber, -⟩ := hexact 9 (by decide) _ _ _ hread
  cases hn
  refine ⟨⟨w', hw', ?_⟩, hread, ?_, hnumber, fun bs hbs h => ?_⟩
  · exact ((hwritten 300 w).2 w' hw').1.trans hbytes
  · exact hanswer 8 (by decide) r
  · exact (hsize 300).2.2.2.2.2 bs hbs h

end Varint

end SchemaWire

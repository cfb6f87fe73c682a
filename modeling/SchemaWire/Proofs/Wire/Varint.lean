import Mathlib.Tactic.Ring
import SchemaWire.Proofs.Wire.Reading
/-!
# Varints: what is written and what is read

The bytes of a varint are the digits of a number in base 128, lowest first, with a mark on every
digit but the last. `Varint.number` is that number and `Varint.Terminated` says that the marks stand
as they should.

* A word is written as a terminated list of groups that denotes it (`Varint.terminated_encode`,
  `Varint.number_encode`), and no terminated list that denotes it is shorter
  (`Varint.size_le_length`).
* `Reader.readVarint_eq_of_terminated` is the exact answer of the reader to a terminated list of at
  most ten groups: the number it denotes if that fits the bits asked for, and an overflow behind the
  same bytes if it does not. `Reader.terminated_of_readVarint` says that nothing else is ever read.

The reader works in 64-bit words and these statements in natural numbers, so the tenth group is
where they could come apart: it has room for one bit, and the reader refuses more than that before
a shift could lose any.
-/

namespace SchemaWire

namespace Varint

/-! ### Numbers in base 128 -/

/-- The number whose base-128 digits are the low seven bits of the bytes, lowest first. -/
def number : List UInt8 → Nat
  | [] => 0
  | b :: bs => b.toNat % 128 + 128 * number bs

/-- The last byte, and no other, is without the mark that says another one follows. -/
inductive Terminated : List UInt8 → Prop where
  /-- The last group of a varint. -/
  | last {b : UInt8} (low : b.toNat < 128) : Terminated [b]
  /-- A group with others behind it. -/
  | more {b : UInt8} {bs : List UInt8} (marked : 128 ≤ b.toNat) (rest : Terminated bs) :
    Terminated (b :: bs)

theorem number_lt (bs : List UInt8) : number bs < 128 ^ bs.length := by
  induction bs with
  | nil => simp [number]
  | cons b bs ih =>
    rw [number, List.length_cons, Nat.pow_succ]
    omega

theorem Terminated.ne_nil {bs : List UInt8} (h : Terminated bs) : bs ≠ [] := by
  cases h <;> simp

theorem toNat_lowGroup (u : UInt64) : (lowGroup u).toNat = u.toNat % 128 := by
  rw [lowGroup, UInt64.toNat_toUInt8, UInt64.toNat_and]
  have : (0x7f : UInt64).toNat = 2 ^ 7 - 1 := rfl
  rw [this, Nat.and_two_pow_sub_one_eq_mod]
  omega

theorem toNat_lowGroup_or (u : UInt64) : (lowGroup u ||| 0x80).toNat = u.toNat % 128 + 128 := by
  have hlow : (lowGroup u).toNat < 2 ^ 7 := by
    rw [toNat_lowGroup]
    omega
  rw [UInt8.toNat_or, Nat.or_comm]
  -- The mark is the bit above the seven of the group, so that `or` is a sum here.
  have := Nat.two_pow_add_eq_or_of_lt hlow 1
  change 2 ^ 7 * 1 ||| (lowGroup u).toNat = _
  rw [← this, toNat_lowGroup]
  omega

theorem toNat_shiftRight_seven (u : UInt64) : (u >>> 7).toNat = u.toNat / 128 := by
  rw [UInt64.toNat_shiftRight]
  exact Nat.shiftRight_eq_div_pow _ 7

theorem terminated_groups (n : Nat) (u : UInt64) : Terminated (groups (n + 1) u) := by
  -- Every group but the last carries the mark.
  induction n generalizing u with
  | zero =>
    refine .last ?_
    rw [toNat_lowGroup]
    omega
  | succ n ih =>
    refine .more ?_ (ih _)
    rw [toNat_lowGroup_or]
    omega

theorem number_groups (n : Nat) (u : UInt64) : number (groups n u) = u.toNat % 128 ^ n := by
  -- The groups are the digits to the base 128, the lowest first.
  fun_induction groups n u with
  | case1 u => simp [number, Nat.mod_one]
  | case2 u =>
    rw [number, number, toNat_lowGroup]
    omega
  | case3 n u ih =>
    rw [number, ih, toNat_lowGroup_or, toNat_shiftRight_seven, Nat.pow_succ' (n := n + 1),
      Nat.mod_mul]
    omega

/-- The size of a varint is the least number of groups whose number can be the word. -/
theorem lt_pow_size (u : UInt64) : u.toNat < 128 ^ size u := by
  have hlog : u.toNat < 2 ^ (u.toNat.log2 + 1) := Nat.lt_log2_self
  -- The size is the number of groups of seven that the bits of the word fill.
  have hle : 2 ^ (u.toNat.log2 + 1) ≤ 2 ^ (7 * size u) := by
    apply Nat.pow_le_pow_right (by decide)
    unfold size
    omega
  rw [Nat.pow_mul] at hle
  exact Nat.lt_of_lt_of_le hlog hle

theorem size_le_of_lt_pow {u : UInt64} {n : Nat} (hn : 0 < n) (h : u.toNat < 128 ^ n) :
    size u ≤ n := by
  unfold size
  -- Zero has no highest bit, and still takes one group.
  by_cases hu : u.toNat = 0
  · simp only [hu, Nat.log2_zero]
    omega
  · rw [show (128 : Nat) = 2 ^ 7 from rfl, ← Nat.pow_mul] at h
    have := (Nat.log2_lt hu).2 h
    omega

theorem terminated_encode (u : UInt64) : Terminated (encode u) := by
  unfold encode
  obtain ⟨n, hn⟩ : ∃ n, size u = n + 1 := ⟨_, rfl⟩
  rw [hn]
  exact terminated_groups n u

theorem number_encode (u : UInt64) : number (encode u) = u.toNat := by
  rw [encode, number_groups, Nat.mod_eq_of_lt (lt_pow_size u)]

/-- No way to write a word in groups is shorter than its varint. -/
theorem size_le_length {u : UInt64} {bs : List UInt8} (h : Terminated bs)
    (hu : u.toNat = number bs) : size u ≤ bs.length :=
  size_le_of_lt_pow (List.length_pos_of_ne_nil h.ne_nil) (hu ▸ number_lt bs)

/-! ### One step of the reader -/

/-- The mark of a byte is its highest bit. -/
theorem and_mark_eq_zero_iff (b : UInt8) : b &&& 0x80 = 0 ↔ b.toNat < 128 := by
  have hb := b.toNat_lt
  have hsplit : b.toNat = 2 ^ 7 * (b.toNat / 128) + b.toNat % 128 := by omega
  have hand : (b &&& 0x80).toNat = 128 * (b.toNat / 128) := by
    rw [UInt8.toNat_and]
    change b.toNat &&& 2 ^ 7 = _
    apply Nat.eq_of_testBit_eq
    intro i
    rw [Nat.testBit_and, Nat.testBit_two_pow]
    -- Bit by bit: only the seventh is left, and it is the one above the group.
    have h2 : b.toNat / 128 < 2 ^ 1 := by omega
    rw [show 128 * (b.toNat / 128) = 2 ^ 7 * (b.toNat / 128) from rfl, Nat.testBit_two_pow_mul]
    by_cases hi : 7 = i
    · subst hi
      rw [Nat.testBit_eq_decide_div_mod_eq, Nat.testBit_eq_decide_div_mod_eq]
      simp
    · by_cases hlt : i < 7
      · simp [hi, Nat.not_le.2 hlt]
      · rw [Nat.testBit_lt_two_pow (x := b.toNat / 128) (i := i - 7)]
        · simp [hi]
        · exact Nat.lt_of_lt_of_le h2 (Nat.pow_le_pow_right (by decide) (by omega))
  rw [← UInt8.toNat_inj, hand]
  change 128 * (b.toNat / 128) = 0 ↔ _
  omega

theorem toNat_group (b : UInt8) : (b &&& 0x7f).toUInt64.toNat = b.toNat % 128 := by
  rw [UInt8.toNat_toUInt64, UInt8.toNat_and]
  exact Nat.and_two_pow_sub_one_eq_mod b.toNat 7

/-- A group goes above the groups before it, as long as the word has room for all of it. -/
theorem toNat_or_shiftLeft {u group : UInt64} {i : Nat} (hi : i < 10)
    (hu : u.toNat < 128 ^ i) (hroom : group.toNat * 128 ^ i < 2 ^ 64) :
    (u ||| group <<< UInt64.ofNat (7 * i)).toNat = u.toNat + group.toNat * 128 ^ i := by
  rw [show (128 : Nat) = 2 ^ 7 from rfl, ← Nat.pow_mul] at hu hroom ⊢
  -- The shift amount is below 64, so the word operation shifts by all of it.
  have hshift : (UInt64.ofNat (7 * i)).toNat % 64 = 7 * i := by
    rw [UInt64.toNat_ofNat']
    omega
  rw [UInt64.toNat_or, UInt64.toNat_shiftLeft, hshift, Nat.shiftLeft_eq, Nat.mod_eq_of_lt hroom,
    Nat.or_comm, Nat.mul_comm group.toNat, ← Nat.two_pow_add_eq_or_of_lt hu]
  exact Nat.add_comm _ _

/-- A word fits a number of bits when nothing is left above them. -/
theorem shiftRight_eq_zero_iff {u : UInt64} {bits : Nat} (h : bits < 64) :
    u >>> UInt64.ofNat bits = 0 ↔ u.toNat < 2 ^ bits := by
  have hshift : (UInt64.ofNat bits).toNat % 64 = bits := by
    rw [UInt64.toNat_ofNat']
    omega
  rw [← UInt64.toNat_inj, UInt64.toNat_shiftRight, hshift, Nat.shiftRight_eq_div_pow]
  exact Nat.div_eq_zero_iff_lt (Nat.two_pow_pos bits)

end Varint

namespace Reader

open Varint

/-- The word made of the groups before and the group in one more byte, behind which at most `left`
groups may come. -/
def addGroup (u : UInt64) (b : UInt8) (left : Nat) : UInt64 :=
  u ||| (b &&& 0x7f).toUInt64 <<< UInt64.ofNat (7 * (maxSize - 1 - left))

/-- What the reader does with one more byte. -/
theorem readGroups_succ {bits left : Nat} {u : UInt64} {r : Reader} {b : UInt8} {bs : List UInt8}
    (h : r.ahead = b :: bs) :
    readGroups bits (left + 1) u r =
      if left = 0 ∧ 1 < b.toNat % 128 then .error (.varintOverflow bits) (r.advance 1)
      else if b.toNat < 128 then
        if bits < 64 ∧ 2 ^ bits ≤ (addGroup u b left).toNat then
          .error (.varintOverflow bits) (r.advance 1)
        else .ok (addGroup u b left) (r.advance 1)
      else readGroups bits left (addGroup u b left) (r.advance 1) := by
  -- The tests of the reader on words, first said of numbers.
  have hgroup : 1 < (b &&& 0x7f).toUInt64 ↔ 1 < b.toNat % 128 := by
    rw [UInt64.lt_iff_toNat_lt, toNat_group]
    rfl
  have hfits (w : UInt64) :
      (bits < 64 ∧ w >>> UInt64.ofNat bits ≠ 0) ↔ (bits < 64 ∧ 2 ^ bits ≤ w.toNat) := by
    refine and_congr_right fun hbits => ?_
    rw [Ne, shiftRight_eq_zero_iff hbits, Nat.not_lt]
  rw [readGroups, Decoder.bind_apply, readByte_eq h]
  simp only [hgroup, hfits, and_mark_eq_zero_iff]
  -- Then the three tests one after another, in the order in which the reader makes them.
  by_cases hover : left = 0 ∧ 1 < b.toNat % 128
  · rw [if_pos hover, if_pos hover]
    rfl
  · rw [if_neg hover, if_neg hover]
    by_cases low : b.toNat < 128
    · rw [if_pos low, if_pos low]
      by_cases hbig : bits < 64 ∧ 2 ^ bits ≤ (addGroup u b left).toNat
      · rw [if_pos hbig]
        exact congrFun (if_pos hbig) _
      · rw [if_neg hbig]
        exact congrFun (if_neg hbig) _
    · rw [if_neg low, if_neg low]
      rfl

/-- A group that the reader has room for goes above the groups before it. -/
theorem toNat_addGroup {u : UInt64} {b : UInt8} {left : Nat} (hleft : left < maxSize)
    (hu : u.toNat < 128 ^ (maxSize - 1 - left)) (hroom : ¬(left = 0 ∧ 1 < b.toNat % 128)) :
    (addGroup u b left).toNat = u.toNat + b.toNat % 128 * 128 ^ (maxSize - 1 - left) := by
  unfold addGroup
  unfold maxSize at *
  rw [toNat_or_shiftLeft (by omega) hu, toNat_group]
  rw [toNat_group]
  by_cases h0 : left = 0
  · -- The tenth group: a single bit is left of the word.
    subst h0
    calc b.toNat % 128 * 128 ^ (10 - 1 - 0) ≤ 1 * 128 ^ 9 := Nat.mul_le_mul_right _ (by omega)
      _ < 2 ^ 64 := by decide
  · have hpow : 128 ^ (10 - 1 - left) ≤ 128 ^ 8 := Nat.pow_le_pow_right (by decide) (by omega)
    calc b.toNat % 128 * 128 ^ (10 - 1 - left) ≤ 127 * 128 ^ 8 := by
          apply Nat.mul_le_mul _ hpow
          omega
      _ < 2 ^ 64 := by decide

/-- After one more group the word still lies below the groups to come. -/
theorem toNat_addGroup_lt {u : UInt64} {b : UInt8} {left : Nat} (hleft : left < maxSize)
    (hu : u.toNat < 128 ^ (maxSize - 1 - left)) (hroom : ¬(left = 0 ∧ 1 < b.toNat % 128)) :
    (addGroup u b left).toNat < 128 ^ (maxSize - left) := by
  have hgroup : b.toNat % 128 * 128 ^ (maxSize - 1 - left) ≤ 127 * 128 ^ (maxSize - 1 - left) :=
    Nat.mul_le_mul_right _ (by omega)
  have hnext : maxSize - left = maxSize - 1 - left + 1 := by omega
  rw [toNat_addGroup hleft hu hroom, hnext, Nat.pow_succ]
  omega

/-- The number that the word and the groups from the next one on denote does not change. -/
theorem toNat_addGroup_add_number {u : UInt64} {b : UInt8} {left : Nat} (hleft : left < maxSize)
    (hu : u.toNat < 128 ^ (maxSize - 1 - left)) (hroom : ¬(left = 0 ∧ 1 < b.toNat % 128))
    (bs : List UInt8) :
    (addGroup u b left).toNat + number bs * 128 ^ (maxSize - left) =
      u.toNat + number (b :: bs) * 128 ^ (maxSize - 1 - left) := by
  have hnext : maxSize - left = maxSize - 1 - left + 1 := by omega
  rw [toNat_addGroup hleft hu hroom, number, hnext, Nat.pow_succ]
  ring

/-- The exact answer to the last group. -/
theorem readGroups_last {bits left : Nat} {u : UInt64} {b : UInt8} {bs : List UInt8} {r : Reader}
    (hbits : bits ≤ 64) (low : b.toNat < 128) (hleft : left < maxSize)
    (hu : u.toNat < 128 ^ (maxSize - 1 - left)) (hr : r.ahead = b :: bs) :
    readGroups bits (left + 1) u r =
      if u.toNat + b.toNat % 128 * 128 ^ (maxSize - 1 - left) < 2 ^ bits then
        .ok (UInt64.ofNat (u.toNat + b.toNat % 128 * 128 ^ (maxSize - 1 - left))) (r.advance 1)
      else .error (.varintOverflow bits) (r.advance 1) := by
  have hpow : (2 : Nat) ^ bits ≤ 2 ^ 64 := Nat.pow_le_pow_right (by decide) hbits
  rw [readGroups_succ hr, if_pos low]
  by_cases hover : left = 0 ∧ 1 < b.toNat % 128
  · -- More than one bit in the tenth group denotes a number beyond every word.
    obtain ⟨rfl, hgroup⟩ := hover
    have hbeyond : 2 * 128 ^ 9 ≤ b.toNat % 128 * 128 ^ (maxSize - 1 - 0) :=
      Nat.mul_le_mul_right _ hgroup
    rw [if_pos ⟨rfl, hgroup⟩, if_neg (by omega)]
  · rw [if_neg hover, ← toNat_addGroup hleft hu hover, UInt64.ofNat_toNat]
    by_cases hlt : (addGroup u b left).toNat < 2 ^ bits
    · rw [if_pos hlt, if_neg fun hbig => Nat.not_le.2 hlt hbig.2]
    · -- Every word fits 64 bits, so fewer have been asked for.
      have hword := (addGroup u b left).toNat_lt
      have hfew : bits < 64 := by
        refine Nat.lt_of_le_of_ne hbits fun h64 => hlt ?_
        rwa [h64]
      rw [if_neg hlt, if_pos ⟨hfew, Nat.not_lt.1 hlt⟩]

/-- **The exact answer to terminated groups**, where `u` is the word made of the groups before. The
induction is on the groups; the room that is left is counted down with them. -/
theorem readGroups_of_terminated {bits left : Nat} {u : UInt64} {bs : List UInt8} {r : Reader}
    (hbits : bits ≤ 64) (hbs : Terminated bs) (hlength : bs.length ≤ left) (hleft : left ≤ maxSize)
    (hu : u.toNat < 128 ^ (maxSize - left)) (hr : bs <+: r.ahead) :
    readGroups bits left u r =
      if u.toNat + number bs * 128 ^ (maxSize - left) < 2 ^ bits then
        .ok (UInt64.ofNat (u.toNat + number bs * 128 ^ (maxSize - left))) (r.advance bs.length)
      else .error (.varintOverflow bits) (r.advance bs.length) := by
  obtain ⟨rest, hr⟩ := hr
  have hpos := List.length_pos_of_ne_nil hbs.ne_nil
  obtain ⟨left, rfl⟩ : ∃ k, left = k + 1 := ⟨left - 1, by omega⟩
  have hi : maxSize - (left + 1) = maxSize - 1 - left := by omega
  rw [hi] at hu ⊢
  -- By induction on the groups, what has been read so far being the lower digits.
  induction hbs generalizing left u r with
  | @last b low =>
    have hnumber : number [b] = b.toNat % 128 := by simp [number]
    rw [hnumber]
    exact readGroups_last hbits low hleft hu hr.symm
  | @more b bs marked hbs ih =>
    -- Another group follows, so this one is not the tenth.
    have hmore := List.length_pos_of_ne_nil hbs.ne_nil
    rw [List.length_cons] at hlength
    obtain ⟨left, rfl⟩ : ∃ k, left = k + 1 := ⟨left - 1, by omega⟩
    have hroom : ¬(left + 1 = 0 ∧ 1 < b.toNat % 128) := by omega
    have hnext : maxSize - 1 - left = maxSize - (left + 1) := by omega
    have hahead : bs ++ rest = (r.advance 1).ahead := by simp [← hr]
    have hlt := toNat_addGroup_lt hleft hu hroom
    rw [← hnext] at hlt
    rw [readGroups_succ hr.symm, if_neg hroom, if_neg (by omega),
      ih hahead hmore left (by omega) (by omega) hlt (by omega), hnext,
      toNat_addGroup_add_number hleft hu hroom]
    simp [Nat.add_comm 1]

/-- What the reader reads successfully is terminated, and takes no more groups than there may be. -/
theorem terminated_of_readGroups {bits left : Nat} {u w : UInt64} {r r' : Reader}
    (h : readGroups bits left u r = .ok w r') :
    ∃ bs, Terminated bs ∧ bs.length ≤ left ∧ bs <+: r.ahead ∧ r' = r.advance bs.length := by
  -- Along the groups that are left: the last one is without the mark, the others carry it.
  induction left generalizing u r with
  | zero => cases h
  | succ left ih =>
    cases hahead : r.ahead with
    | nil =>
      rw [readGroups] at h
      obtain ⟨b, r₁, hb, -⟩ := Decoder.bind_eq_ok_iff.1 h
      obtain ⟨bytes, hpre, -, rfl⟩ := Decoder.yields_readByte r b r₁ rfl hb
      simp [hahead] at hpre
    | cons b rest =>
      rw [readGroups_succ hahead] at h
      split at h
      · cases h
      · split at h
        · next low =>
          split at h
          · cases h
          · cases h
            exact ⟨[b], .last low, by simp, ⟨rest, rfl⟩, rfl⟩
        · next hmarked =>
          obtain ⟨bs, hbs, hlength, ⟨more, hmore⟩, rfl⟩ := ih h
          have : rest = bs ++ more := by simpa [hahead] using hmore.symm
          exact ⟨b :: bs, .more (by omega) hbs, by simpa using hlength, ⟨more, by simp [this]⟩,
            by simp [Nat.add_comm 1]⟩

/-- **The exact answer of the reader** to at most ten terminated groups. -/
theorem readVarint_eq_of_terminated {bits : Nat} {bs : List UInt8} {r : Reader} (hbits : bits ≤ 64)
    (hbs : Terminated bs) (hlength : bs.length ≤ maxSize) (hr : bs <+: r.ahead) :
    readVarint bits r =
      if number bs < 2 ^ bits then .ok (UInt64.ofNat (number bs)) (r.advance bs.length)
      else .error (.varintOverflow bits) (r.advance bs.length) := by
  have := readGroups_of_terminated hbits hbs hlength (Nat.le_refl _) (u := 0) (by simp) hr
  simpa [readVarint] using this

/-- **Nothing else is read**: what the reader accepts is terminated, has at most ten groups, and
denotes the word that is returned. -/
theorem terminated_of_readVarint {bits : Nat} {w : UInt64} {r r' : Reader} (hbits : bits ≤ 64)
    (h : readVarint bits r = .ok w r') :
    ∃ bs, Terminated bs ∧ bs.length ≤ maxSize ∧ bs <+: r.ahead ∧ r' = r.advance bs.length ∧
      w.toNat = number bs ∧ number bs < 2 ^ bits := by
  obtain ⟨bs, hbs, hlength, hr, hr'⟩ := terminated_of_readGroups h
  -- The bytes that were read decide the answer, which was not an error.
  rw [readVarint_eq_of_terminated hbits hbs hlength hr] at h
  split at h
  · next hlt =>
    cases h
    have hpow : (2 : Nat) ^ bits ≤ 2 ^ 64 := Nat.pow_le_pow_right (by decide) hbits
    exact ⟨bs, hbs, hlength, hr, rfl, by rw [UInt64.toNat_ofNat']; omega, hlt⟩
  · cases h

end Reader

namespace Decoder

open Varint

variable {format : WireFormat}

theorem reads_readVarint {bits : Nat} (hbits : bits ≤ 64) {u : UInt64} (h : u.toNat < 2 ^ bits) :
    Reads (Reader.readVarint bits) format (encode u) u := by
  intro r _ hr
  have hlength : (encode u).length ≤ maxSize := length_encode u ▸ size_le u
  rw [Reader.readVarint_eq_of_terminated hbits (terminated_encode u) hlength hr, number_encode,
    if_pos h, UInt64.ofNat_toNat]

theorem yields_readVarint {bits : Nat} (hbits : bits ≤ 64) :
    Yields (Reader.readVarint bits) format fun u bytes =>
      u.toNat < 2 ^ bits ∧ (encode u).length ≤ bytes.length := by
  intro r u r' _ h
  obtain ⟨bs, hbs, -, hr, hr', hu, hlt⟩ := Reader.terminated_of_readVarint hbits h
  exact ⟨bs, hr, hr', hu ▸ hlt, length_encode u ▸ size_le_length hbs hu⟩

/-! ### Lengths and counts -/

theorem reads_readLength {n : Nat} (h : n < 2 ^ 32) :
    Reads Reader.readLength format ((Step.length n).bytes format) n := by
  intro r hr hbytes
  rw [Reader.readLength_eq hr]
  unfold Step.bytes at hbytes ⊢
  -- A length is a varint at the highest level and four bytes below.
  by_cases hvarint : format.varintLengths
  · simp only [hvarint, if_true] at hbytes ⊢
    have hword : (UInt64.ofNat n).toNat = n := by
      rw [UInt64.toNat_ofNat']
      omega
    have hread : Reads (Reader.readVarint 32) format (encode (UInt64.ofNat n)) (UInt64.ofNat n) :=
      reads_readVarint (by decide) (by omega)
    have := hread.map UInt64.toNat r hr hbytes
    rwa [hword] at this
  · simp only [hvarint] at hbytes ⊢
    exact reads_readFixed h r hr hbytes

theorem yields_readLength :
    Yields Reader.readLength format fun n bytes =>
      n < 2 ^ 32 ∧ ((Step.length n).bytes format).length ≤ bytes.length ∧
        (format.varintLengths = false → bytes = (Step.length n).bytes format) := by
  intro r n r' hr h
  rw [Reader.readLength_eq hr] at h
  unfold Step.bytes
  -- The same two forms, read back.
  by_cases hvarint : format.varintLengths
  · simp only [hvarint, if_true] at h ⊢
    obtain ⟨u, r₁, hu, hn⟩ := bind_eq_ok_iff.1 h
    cases hn
    obtain ⟨bytes, hpre, hr', hlt, hle⟩ := yields_readVarint (by decide) r u r' hr hu
    refine ⟨bytes, hpre, hr', hlt, ?_, nofun⟩
    rwa [UInt64.ofNat_toNat]
  · simp only [hvarint] at h ⊢
    obtain ⟨bytes, hpre, hr', hlt, rfl⟩ := yields_readFixed 4 r n r' hr h
    exact ⟨_, hpre, hr', hlt, Nat.le_refl _, fun _ => rfl⟩

end Decoder

end SchemaWire

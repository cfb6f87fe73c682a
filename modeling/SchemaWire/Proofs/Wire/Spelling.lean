import SchemaWire.Proofs.Wire.Varint
/-!
# The spellings of a word

A varint ends at the first group that is not marked, and nothing asks that this group be one that
the word needs. A word therefore has several **spellings**: its varint, and its varint continued by
groups of zeros (`Varint.padded`), as many as there is room for in ten bytes.

* `Varint.eq_padded_of_terminated` — terminated groups that denote a word are one of its spellings.
  This is where the bytes come in; everything behind it speaks about spellings.
* `Reader.readVarint_eq_ok_iff` — a varint is read from every spelling of a word that fits, and
  from nothing else. `Reader.Passes` relates the readers before and after.
* `Reader.readVarint_bind_eq_ok_iff` — the same for whatever is made of the word afterwards.

The writer writes the shortest spelling (`Varint.padded_zero`), so what is read is rewritten in the
same bytes exactly where no group of zeros was added (`Varint.padded_eq_encode_iff`).
-/

namespace SchemaWire

namespace Varint

/-- A group with the mark that another one follows. -/
def mark (b : UInt8) : UInt8 := b ||| 0x80

/-- The varint of a word, continued by a number of groups of zeros. -/
def padded (u : UInt64) : (zeros : Nat) → List UInt8
  | 0 => encode u
  | zeros + 1 => (encode u).map mark ++ (List.replicate zeros 0x80 ++ [0])

@[simp] theorem padded_zero (u : UInt64) : padded u 0 = encode u := rfl

@[simp] theorem length_padded (u : UInt64) (zeros : Nat) :
    (padded u zeros).length = size u + zeros := by
  cases zeros <;> simp [padded]

/-- Only one spelling of a word is the one that is written. -/
theorem padded_eq_encode_iff {u : UInt64} {zeros : Nat} :
    padded u zeros = encode u ↔ zeros = 0 := by
  constructor
  · intro h
    -- Each padding zero makes the spelling longer by one byte.
    have := congrArg List.length h
    rw [length_padded, length_encode] at this
    omega
  · rintro rfl
    rfl

/-- Marking a group twice is marking it once. -/
theorem mark_mark (b : UInt8) : mark (mark b) = mark b := by
  rw [mark, mark, UInt8.or_assoc, UInt8.or_self]

/-- Behind the last group that a word needs come groups of zeros. -/
theorem groups_of_lt_pow {n : Nat} {u : UInt64} (zeros : Nat) (h : u.toNat < 128 ^ n) :
    groups (n + zeros + 1) u = (groups n u).map mark ++ (List.replicate zeros 0x80 ++ [0]) := by
  -- By induction on the number of groups that the word needs.
  induction n generalizing u with
  | zero =>
    have hu : u = 0 := UInt64.toNat_inj.1 (by simpa using h)
    subst hu
    -- A word without groups: only zeros are left.
    induction zeros with
    | zero => rfl
    | succ zeros ih =>
      rw [Nat.zero_add] at ih ⊢
      rw [List.replicate_succ, List.cons_append]
      exact congrArg (0x80 :: ·) ih
  | succ n ih =>
    have hshift : (u >>> 7).toNat < 128 ^ n := by
      rw [toNat_shiftRight_seven]
      rw [Nat.pow_succ] at h
      omega
    rw [show n + 1 + zeros + 1 = n + zeros + 2 by omega, groups, ih hshift]
    cases n with
    | zero => rfl
    | succ n =>
      rw [groups, List.map_cons, List.cons_append]
      exact congrArg (· :: _) (mark_mark (lowGroup u)).symm

theorem groups_size_add (u : UInt64) (zeros : Nat) :
    groups (size u + zeros) u = padded u zeros := by
  cases zeros with
  | zero => rfl
  | succ zeros => exact groups_of_lt_pow zeros (lt_pow_size u)

theorem terminated_padded (u : UInt64) (zeros : Nat) : Terminated (padded u zeros) := by
  obtain ⟨n, hn⟩ : ∃ n, size u + zeros = n + 1 :=
    ⟨size u - 1 + zeros, by have := size_pos u; omega⟩
  rw [← groups_size_add, hn]
  exact terminated_groups n u

theorem number_padded (u : UInt64) (zeros : Nat) : number (padded u zeros) = u.toNat := by
  have hpow : 128 ^ size u ≤ 128 ^ (size u + zeros) :=
    Nat.pow_le_pow_right (by decide) (Nat.le_add_right _ _)
  rw [← groups_size_add, number_groups,
    Nat.mod_eq_of_lt (Nat.lt_of_lt_of_le (lt_pow_size u) hpow)]

/-- The groups of a word are determined by their number. -/
theorem eq_groups_of_terminated {u : UInt64} {bs : List UInt8} (h : Terminated bs)
    (hu : u.toNat = number bs) : bs = groups bs.length u := by
  -- By induction on the bytes: the first group is the lowest digit of the number, and the rest
  -- spells what is above it.
  induction h generalizing u with
  | @last b low =>
    have hb : lowGroup u = b := by
      rw [← UInt8.toNat_inj, toNat_lowGroup, hu, number, number]
      omega
    rw [List.length_singleton, groups, hb]
  | @more b bs marked hbs ih =>
    obtain ⟨n, hn⟩ : ∃ n, bs.length = n + 1 :=
      ⟨bs.length - 1, by have := List.length_pos_of_ne_nil hbs.ne_nil; omega⟩
    rw [number] at hu
    have hlt := b.toNat_lt
    have hb : lowGroup u ||| 0x80 = b := by
      -- Only the byte with the mark is left over by the division.
      rw [← UInt8.toNat_inj, toNat_lowGroup_or]
      omega
    have hrest : (u >>> 7).toNat = number bs := by
      rw [toNat_shiftRight_seven]
      omega
    rw [List.length_cons, hn, groups, hb, ← hn]
    exact congrArg (b :: ·) (ih hrest)

/-- **Terminated groups are a spelling** of the word that they denote. -/
theorem eq_padded_of_terminated {u : UInt64} {bs : List UInt8} (h : Terminated bs)
    (hu : u.toNat = number bs) :
    ∃ zeros, bs.length = size u + zeros ∧ bs = padded u zeros := by
  obtain ⟨zeros, hzeros⟩ := Nat.exists_eq_add_of_le (size_le_length h hu)
  refine ⟨zeros, hzeros, ?_⟩
  calc bs = groups bs.length u := eq_groups_of_terminated h hu
    _ = groups (size u + zeros) u := by rw [hzeros]
    _ = padded u zeros := groups_size_add u zeros

end Varint

namespace Reader

open Varint

variable {r r' : Reader} {u : UInt64} {bits : Nat}

/-- The second reader stands behind a spelling of the word that lies ahead of the first. -/
def Passes (u : UInt64) (r r' : Reader) : Prop :=
  ∃ zeros, size u + zeros ≤ maxSize ∧ padded u zeros <+: r.ahead ∧
    r' = r.advance (size u + zeros)

/-- **What the reader accepts**: every spelling of a word that fits, the padded ones included. -/
theorem readVarint_eq_ok_iff (hbits : bits ≤ 64) :
    readVarint bits r = .ok u r' ↔ u.toNat < 2 ^ bits ∧ r.Passes u r' := by
  constructor
  · intro h
    obtain ⟨bs, hbs, hlength, hr, hr', hu, hlt⟩ := terminated_of_readVarint hbits h
    obtain ⟨zeros, hzeros, rfl⟩ := eq_padded_of_terminated hbs hu
    exact ⟨hu ▸ hlt, zeros, hzeros ▸ hlength, hr, hzeros ▸ hr'⟩
  · rintro ⟨hlt, zeros, hroom, hr, rfl⟩
    have hlength : (padded u zeros).length ≤ maxSize := length_padded u zeros ▸ hroom
    rw [readVarint_eq_of_terminated hbits (terminated_padded u zeros) hlength hr, number_padded,
      if_pos hlt, UInt64.ofNat_toNat, length_padded]

/-- What is made of a word is made of each of its spellings. -/
theorem readVarint_bind_eq_ok_iff {α : Type} {x : α} {f : UInt64 → Except DecodeError α}
    (hbits : bits ≤ 64) :
    (do ofExcept (f (← readVarint bits)) : Decoder α) r = .ok x r' ↔
      ∃ u, u.toNat < 2 ^ bits ∧ f u = .ok x ∧ r.Passes u r' := by
  -- The conversion reads nothing, so the reader stays where it was.
  have hmade (u : UInt64) (r₁ : Reader) :
      (ofExcept (f u) : Decoder α) r₁ = .ok x r' ↔ f u = .ok x ∧ r₁ = r' := by
    cases f u with
    | ok y =>
      change EStateM.Result.ok y r₁ = .ok x r' ↔ _
      simp
    | error e =>
      change EStateM.Result.error e r₁ = .ok x r' ↔ _
      simp
  rw [Decoder.bind_eq_ok_iff]
  constructor
  · rintro ⟨u, r₁, hread, hf⟩
    obtain ⟨hlt, hpass⟩ := (readVarint_eq_ok_iff hbits).1 hread
    obtain ⟨hx, rfl⟩ := (hmade u r₁).1 hf
    exact ⟨u, hlt, hx, hpass⟩
  · rintro ⟨u, hlt, hx, hpass⟩
    exact ⟨u, r', (readVarint_eq_ok_iff hbits).2 ⟨hlt, hpass⟩, (hmade u r').2 ⟨hx, rfl⟩⟩

/-- A length is read from every spelling of its word. -/
theorem readLength_eq_ok_iff {n : Nat} (hvarint : r.format.varintLengths = true) :
    readLength r = .ok n r' ↔ n < 2 ^ 32 ∧ r.Passes (UInt64.ofNat n) r' := by
  have hlength : readLength r =
      (do ofExcept (.ok (← readVarint 32).toNat) : Decoder Nat) r := by
    rw [readLength_eq rfl, if_pos hvarint]
    rfl
  rw [hlength, readVarint_bind_eq_ok_iff (f := fun u => .ok u.toNat) (by decide)]
  constructor
  · rintro ⟨u, hlt, hn, hpass⟩
    cases hn
    rw [UInt64.ofNat_toNat]
    exact ⟨hlt, hpass⟩
  · rintro ⟨hlt, hpass⟩
    -- A count below 2 ^ 32 is a word, and nothing is lost on the way.
    have hword : (UInt64.ofNat n).toNat = n := by
      rw [UInt64.toNat_ofNat']
      omega
    exact ⟨_, by rwa [hword], congrArg Except.ok hword, hpass⟩

end Reader

end SchemaWire

import SchemaWire.Proofs.Layout.Primitive
/-!
# The range of an integer of a variable length

An integer of a variable length is written as a word and read from a number in base 128, which may
be larger than any word and larger than any member of its kind. `ScalarKind.InRange` says which
integers are members of a kind (`ScalarKind.exists_of_inRange`, `ScalarKind.inRange_of_integer?`),
and `Primitive.accepts_exactly_range` that these are read and all others refused.

Signed and unsigned kinds refuse in different places. An unsigned integer is its own word, so the
number of bits that are read is its range (`Primitive.refuses_unsigned`). A signed one is read as a
whole word, and the range is checked on what zigzag makes of it (`Primitive.refuses_signed`). What
they accept comes from one statement, `Primitive.decode_of_toWord`: if terminated groups denote the
word of a member, that member is read from them. The varint that is written for it is one such list
of groups, and any number in the range denotes the word of some member.
-/

namespace SchemaWire

open Varint

/-- The integer that a scalar is, if its kind is one of integers. -/
def Scalar.integer? : Scalar → Option Int
  | ⟨.i8, n⟩ => some n.toInt
  | ⟨.i16, n⟩ => some n.toInt
  | ⟨.i32, n⟩ => some n.toInt
  | ⟨.i64, n⟩ => some n.toInt
  | ⟨.u8, n⟩ => some n.toNat
  | ⟨.u16, n⟩ => some n.toNat
  | ⟨.u32, n⟩ => some n.toNat
  | ⟨.u64, n⟩ => some n.toNat
  | _ => none

namespace ScalarKind

variable {k : ScalarKind} {s : Scalar} {i : Int} {u : UInt64}

/-! ### The members of a kind -/

/-- **The range of a kind of integers**: two's complement for the signed ones. -/
def InRange (k : ScalarKind) (i : Int) : Prop :=
  if k.isSigned then -2 ^ (k.bits - 1) ≤ i ∧ i < 2 ^ (k.bits - 1) else 0 ≤ i ∧ i < 2 ^ k.bits

instance (k : ScalarKind) (i : Int) : Decidable (k.InRange i) :=
  inferInstanceAs (Decidable (ite _ _ _))

theorem inRange_of_signed (hsigned : k.isSigned = true) :
    k.InRange i ↔ -2 ^ (k.bits - 1) ≤ i ∧ i < 2 ^ (k.bits - 1) := by
  rw [InRange, if_pos hsigned]

theorem inRange_natCast_iff (hunsigned : k.isSigned = false) {n : Nat} :
    k.InRange n ↔ n < 2 ^ k.bits := by
  have hcast : (2 : Int) ^ k.bits = (2 ^ k.bits : Nat) := (Int.natCast_pow 2 k.bits).symm
  rw [InRange, hunsigned, if_neg Bool.false_ne_true, hcast]
  omega

/-- The check of signed kinds is the one for their range. -/
theorem holds_iff_inRange (hsigned : k.isSigned = true) {j : Int64} :
    k.holds j = true ↔ k.InRange j.toInt := by
  have hcast : ((1 <<< (k.bits - 1) : Nat) : Int) = 2 ^ (k.bits - 1) := by
    rw [Nat.one_shiftLeft, Int.natCast_pow]
    rfl
  rw [holds, decide_eq_true_iff, hcast, inRange_of_signed hsigned]

/-- Every integer in the range of a kind is a member of it. -/
theorem exists_of_inRange (hinteger : k.isInteger = true) (h : k.InRange i) :
    ∃ s : Scalar, s.kind = k ∧ s.integer? = some i := by
  -- The bounds are those between which the conversion to the kind does not wrap.
  cases k <;> try cases hinteger
  case i8 => exact ⟨⟨.i8, Int8.ofInt i⟩, rfl, congrArg some (Int8.toInt_ofInt_of_le h.1 h.2)⟩
  case i16 => exact ⟨⟨.i16, Int16.ofInt i⟩, rfl, congrArg some (Int16.toInt_ofInt_of_le h.1 h.2)⟩
  case i32 => exact ⟨⟨.i32, Int32.ofInt i⟩, rfl, congrArg some (Int32.toInt_ofInt_of_le h.1 h.2)⟩
  case i64 => exact ⟨⟨.i64, Int64.ofInt i⟩, rfl, congrArg some (Int64.toInt_ofInt_of_le h.1 h.2)⟩
  all_goals
    obtain ⟨n, rfl⟩ := Int.eq_ofNat_of_zero_le h.1
    have hn := (inRange_natCast_iff rfl).1 h
    have hmember {m : Nat} (hm : m = n) : some (m : Int) = some (n : Int) := by rw [hm]
  case u8 => exact ⟨⟨.u8, UInt8.ofNat n⟩, rfl, hmember (UInt8.toNat_ofNat_of_lt' hn)⟩
  case u16 => exact ⟨⟨.u16, UInt16.ofNat n⟩, rfl, hmember (UInt16.toNat_ofNat_of_lt' hn)⟩
  case u32 => exact ⟨⟨.u32, UInt32.ofNat n⟩, rfl, hmember (UInt32.toNat_ofNat_of_lt' hn)⟩
  case u64 => exact ⟨⟨.u64, UInt64.ofNat n⟩, rfl, hmember (UInt64.toNat_ofNat_of_lt' hn)⟩

/-- Every member of a kind is an integer in its range. -/
theorem inRange_of_integer? (h : s.integer? = some i) : s.kind.InRange i := by
  obtain ⟨k, v⟩ := s
  cases k <;> cases h
  case i8 | i16 | i32 | i64 => exact ⟨v.le_toInt, v.toInt_lt⟩
  case u8 | u16 | u32 | u64 => exact (inRange_natCast_iff rfl).2 v.toNat_lt

/-- No two members of a kind are the same integer. -/
theorem eq_of_integer? {t : Scalar} (hkind : t.kind = s.kind) (ht : t.integer? = some i)
    (hs : s.integer? = some i) : t = s := by
  have hsame : t.integer? = s.integer? := ht.trans hs.symm
  obtain ⟨k, v⟩ := s
  obtain ⟨_, v'⟩ := t
  cases hkind
  congr 1
  -- Each kind of integer is determined by its own conversion.
  cases k
  case bool | char | f32 | f64 => cases hs
  case i8 => exact Int8.toInt_inj.1 (Option.some.inj hsame)
  case i16 => exact Int16.toInt_inj.1 (Option.some.inj hsame)
  case i32 => exact Int32.toInt_inj.1 (Option.some.inj hsame)
  case i64 => exact Int64.toInt_inj.1 (Option.some.inj hsame)
  case u8 => exact UInt8.toNat_inj.1 (Int.ofNat_inj.1 (Option.some.inj hsame))
  case u16 => exact UInt16.toNat_inj.1 (Int.ofNat_inj.1 (Option.some.inj hsame))
  case u32 => exact UInt32.toNat_inj.1 (Int.ofNat_inj.1 (Option.some.inj hsame))
  case u64 => exact UInt64.toNat_inj.1 (Int.ofNat_inj.1 (Option.some.inj hsame))

/-! ### Members and words -/

/-- The word of a signed integer is its zigzag number. -/
theorem toWord_of_signed (hsigned : s.kind.isSigned = true) {j : Int64}
    (h : s.integer? = some j.toInt) : s.toWord = zigzag j := by
  obtain ⟨k, v⟩ := s
  -- A signed kind is first widened to 64 bits, which keeps the number.
  cases k <;> try cases hsigned
  all_goals
    have hv : v.toInt = j.toInt := Option.some.inj h
    refine congrArg zigzag (Int64.toInt_inj.1 ?_)
  case i8 => exact (Int8.toInt_toInt64 v).trans hv
  case i16 => exact (Int16.toInt_toInt64 v).trans hv
  case i32 => exact (Int32.toInt_toInt64 v).trans hv
  case i64 => exact hv

/-- The word of an unsigned integer is the integer itself. -/
theorem toWord_of_unsigned (hunsigned : s.kind.isSigned = false) {n : Nat}
    (h : s.integer? = some (n : Int)) : s.toWord = UInt64.ofNat n := by
  obtain ⟨k, v⟩ := s
  cases k <;> try cases hunsigned
  case bool | char | f32 | f64 => cases h
  all_goals
    have hv : v.toNat = n := Int.ofNat_inj.1 (Option.some.inj h)
    exact congrArg UInt64.ofNat hv

/-- Signed kinds take a whole word. -/
theorem varintBits_of_signed (hsigned : k.isSigned = true) : k.varintBits = 64 := if_pos hsigned

/-- Unsigned kinds take the bits that their range has. -/
theorem varintBits_of_unsigned (hunsigned : k.isSigned = false) : k.varintBits = k.bits := by
  rw [varintBits, hunsigned, if_neg Bool.false_ne_true]

/-- A signed kind makes nothing of a word that stands for an integer outside its range. -/
theorem ofWord_eq_error (hsigned : k.isSigned = true) (h : ¬k.InRange (unzigzag u).toInt) :
    k.ofWord u = .error (.integerOverflow k.name) := by
  have hholds : k.holds (unzigzag u) = false :=
    Bool.eq_false_iff.2 fun hholds => h ((holds_iff_inRange hsigned).1 hholds)
  simp only [ofWord, hsigned, hholds]
  rfl

end ScalarKind

namespace Primitive

variable {q : Primitive} {format : WireFormat} {bs : List UInt8} {r : Reader} {s : Scalar}

/-- The primitive reads an integer from the next bytes, as many as said. -/
def ReadsInteger (q : Primitive) (format : WireFormat) (r : Reader) (size : Nat) (i : Int) : Prop :=
  ∃ s : Scalar, s.kind = q.kind ∧ s.integer? = some i ∧
    q.decode format r = .ok (q.box s) (r.advance size)

/-! ### Reading terminated groups -/

section Groups

variable (hvarint : q.isVarint format = true) (hbs : Terminated bs) (hlength : bs.length ≤ maxSize)
  (hr : bs <+: r.ahead)

include hvarint hbs hlength hr

/-- A number with more bits than are read is an overflow of these bits. -/
theorem decode_of_overflow (hover : 2 ^ q.kind.varintBits ≤ number bs) :
    q.decode format r = .error (.varintOverflow q.kind.varintBits) (r.advance bs.length) := by
  rw [decode_of_isVarint hvarint, Decoder.bind_apply,
    Reader.readVarint_eq_of_terminated q.kind.varintBits_le hbs hlength hr,
    if_neg (Nat.not_lt.2 hover)]

/-- What a number that fits comes to is what its word comes to. -/
theorem decode_of_fits {u : UInt64} (hu : u.toNat = number bs)
    (hfits : u.toNat < 2 ^ q.kind.varintBits) :
    q.decode format r =
      match q.kind.ofWord u with
      | .ok s => .ok (q.box s) (r.advance bs.length)
      | .error e => .error e (r.advance bs.length) := by
  rw [decode_of_isVarint hvarint, Decoder.bind_apply,
    Reader.readVarint_eq_of_terminated q.kind.varintBits_le hbs hlength hr, ← hu, if_pos hfits,
    UInt64.ofNat_toNat]
  change (ofExcept ((q.kind.ofWord u).map q.box) : Decoder Value) (r.advance bs.length) = _
  cases q.kind.ofWord u <;> rfl

/-- **A member of the kind is read from its word**, in whatever groups this is denoted. -/
theorem decode_of_toWord (hkind : s.kind = q.kind) (hword : s.toWord.toNat = number bs) :
    q.decode format r = .ok (q.box s) (r.advance bs.length) := by
  have hinteger : s.kind.isInteger = true := hkind ▸ isInteger_of_isVarint hvarint
  have hfits : s.toWord.toNat < 2 ^ q.kind.varintBits := hkind ▸ ScalarKind.toWord_lt hinteger
  have hread : q.kind.ofWord s.toWord = .ok s := hkind ▸ ScalarKind.ofWord_toWord hinteger
  rw [decode_of_fits hvarint hbs hlength hr hword hfits, hread]

/-- A number in the range of an unsigned kind is read as itself. -/
theorem readsInteger_unsigned (hunsigned : q.kind.isSigned = false)
    (hrange : q.kind.InRange (number bs)) : q.ReadsInteger format r bs.length (number bs) := by
  obtain ⟨s, hkind, hs⟩ := ScalarKind.exists_of_inRange (isInteger_of_isVarint hvarint) hrange
  refine ⟨s, hkind, hs, decode_of_toWord hvarint hbs hlength hr hkind ?_⟩
  -- The number fits the bits of the kind, and these fit a word.
  have hfits : number bs < 2 ^ q.kind.bits := (ScalarKind.inRange_natCast_iff hunsigned).1 hrange
  have hbits : q.kind.bits ≤ 64 :=
    ScalarKind.varintBits_of_unsigned hunsigned ▸ q.kind.varintBits_le
  have hword : number bs < 2 ^ 64 :=
    calc number bs < 2 ^ q.kind.bits := hfits
      _ ≤ 2 ^ 64 := Nat.pow_le_pow_right (by decide) hbits
  rw [ScalarKind.toWord_of_unsigned (hkind ▸ hunsigned) hs, UInt64.toNat_ofNat',
    Nat.mod_eq_of_lt hword]

/-- **Unsigned kinds refuse by the bits**: a number outside the range has too many of them. -/
theorem refuses_unsigned (hunsigned : q.kind.isSigned = false)
    (hrange : ¬q.kind.InRange (number bs)) :
    q.decode format r = .error (.varintOverflow q.kind.bits) (r.advance bs.length) := by
  have hbits : q.kind.varintBits = q.kind.bits := ScalarKind.varintBits_of_unsigned hunsigned
  have hover : 2 ^ q.kind.varintBits ≤ number bs := by
    rw [hbits, ← Nat.not_lt]
    exact fun hlt => hrange ((ScalarKind.inRange_natCast_iff hunsigned).2 hlt)
  rw [decode_of_overflow hvarint hbs hlength hr hover, hbits]

/-- A word that stands for an integer in the range of a signed kind is read as this integer. -/
theorem readsInteger_signed (hsigned : q.kind.isSigned = true) {u : UInt64}
    (hu : u.toNat = number bs) (hrange : q.kind.InRange (unzigzag u).toInt) :
    q.ReadsInteger format r bs.length (unzigzag u).toInt := by
  obtain ⟨s, hkind, hs⟩ := ScalarKind.exists_of_inRange (isInteger_of_isVarint hvarint) hrange
  refine ⟨s, hkind, hs, decode_of_toWord hvarint hbs hlength hr hkind ?_⟩
  rw [ScalarKind.toWord_of_signed (hkind ▸ hsigned) hs, zigzag_unzigzag, hu]

/-- **Signed kinds refuse by the range**: any word is read, and what it stands for is checked. -/
theorem refuses_signed (hsigned : q.kind.isSigned = true) {u : UInt64} (hu : u.toNat = number bs)
    (hrange : ¬q.kind.InRange (unzigzag u).toInt) :
    q.decode format r = .error (.integerOverflow q.kind.name) (r.advance bs.length) := by
  have hfits : u.toNat < 2 ^ q.kind.varintBits :=
    ScalarKind.varintBits_of_signed hsigned ▸ u.toNat_lt
  rw [decode_of_fits hvarint hbs hlength hr hu hfits, ScalarKind.ofWord_eq_error hsigned hrange]

/-- No signed kind reads a number that is no word. -/
theorem refuses_beyond_word (hsigned : q.kind.isSigned = true) (hover : 2 ^ 64 ≤ number bs) :
    q.decode format r = .error (.varintOverflow 64) (r.advance bs.length) := by
  have hbits : q.kind.varintBits = 64 := ScalarKind.varintBits_of_signed hsigned
  rw [decode_of_overflow hvarint hbs hlength hr (hbits ▸ hover), hbits]

end Groups

/-! ### Writing and reading back -/

/-- **Every member of the kind makes the round trip**, through any writer that has room for it and
from any reader that its bytes lie ahead of. -/
theorem exists_run_script (hvarint : q.isVarint format = true) (hkind : s.kind = q.kind)
    {w : Writer} (hroom : w.position + size s.toWord ≤ w.buffer.size) :
    ∃ w', (q.script format (q.box s)).run w = .ok () w' ∧
      w'.written.toList = w.written.toList ++ encode s.toWord ∧
      ∀ r : Reader, encode s.toWord <+: r.ahead →
        q.decode format r = .ok (q.box s) (r.advance (size s.toWord)) := by
  have hscript : q.script format (q.box s) = [.varint s.toWord] := by
    rw [script_box hkind, step, if_pos hvarint]
  have hbytes : Script.bytes w.format [.varint s.toWord] = encode s.toWord := List.append_nil _
  obtain ⟨w', hw'⟩ : ∃ w', Script.run [.varint s.toWord] w = .ok () w' := by
    refine Script.run_eq_ok_iff.2 ⟨Script.valid_cons.2 ⟨trivial, Script.valid_nil⟩, ?_⟩
    rwa [hbytes, length_encode]
  obtain ⟨-, -, hwritten⟩ := Script.written_of_run_eq_ok hw'
  refine ⟨w', hscript ▸ hw', hbytes ▸ hwritten, fun r hr => ?_⟩
  -- The varint of a word is one list of groups that denotes it.
  have hlength : (encode s.toWord).length ≤ maxSize := length_encode s.toWord ▸ size_le s.toWord
  rw [← length_encode s.toWord]
  exact decode_of_toWord hvarint (terminated_encode s.toWord) hlength hr hkind
    (number_encode s.toWord).symm

/-- **Integers of a variable length have exactly the range of their kind.**

* Zigzag is a bijection between the signed and the unsigned words, and an integer has a number of at
  most `n` bits exactly if it takes at most `n` bits itself.
* The members of a kind are the integers in its range, and each of them is written and read back.
* Of all numbers that terminated groups can denote, an unsigned kind reads those in its range and
  refuses the others as too many bits for the kind.
* A signed kind reads the words that stand for an integer in its range. It refuses the other words
  as integers that do not fit the kind, and what is no word as too many bits for a word. -/
theorem accepts_exactly_range :
    (∀ i : Int64, unzigzag (zigzag i) = i) ∧ (∀ u : UInt64, zigzag (unzigzag u) = u) ∧
    (∀ n, 1 ≤ n → n ≤ 64 → ∀ i : Int64,
      (zigzag i).toNat < 2 ^ n ↔ -2 ^ (n - 1) ≤ i.toInt ∧ i.toInt < 2 ^ (n - 1)) ∧
    (∀ k : ScalarKind, k.isInteger = true → ∀ i : Int,
      k.InRange i ↔ ∃! s : Scalar, s.kind = k ∧ s.integer? = some i) ∧
    ∀ (q : Primitive) (format : WireFormat), q.isVarint format = true →
      (∀ s : Scalar, s.kind = q.kind → ∀ w : Writer,
        w.position + size s.toWord ≤ w.buffer.size →
          ∃ w', (q.script format (q.box s)).run w = .ok () w' ∧
            w'.written.toList = w.written.toList ++ encode s.toWord ∧
            ∀ r : Reader, encode s.toWord <+: r.ahead →
              q.decode format r = .ok (q.box s) (r.advance (size s.toWord))) ∧
      ∀ (bs : List UInt8) (r : Reader), Terminated bs → bs.length ≤ 10 → bs <+: r.ahead →
        (q.kind.isSigned = false →
          (q.kind.InRange (number bs) → q.ReadsInteger format r bs.length (number bs)) ∧
          (¬q.kind.InRange (number bs) →
            q.decode format r = .error (.varintOverflow q.kind.bits) (r.advance bs.length))) ∧
        (q.kind.isSigned = true →
          (2 ^ 64 ≤ number bs →
            q.decode format r = .error (.varintOverflow 64) (r.advance bs.length)) ∧
          ∀ u : UInt64, u.toNat = number bs →
            (q.kind.InRange (unzigzag u).toInt →
              q.ReadsInteger format r bs.length (unzigzag u).toInt) ∧
            (¬q.kind.InRange (unzigzag u).toInt →
              q.decode format r =
                .error (.integerOverflow q.kind.name) (r.advance bs.length))) := by
  -- Integers and words correspond one to one, by zigzag both ways.
  refine ⟨unzigzag_zigzag, zigzag_unzigzag, fun n hn _ i => zigzag_lt_two_pow_iff hn i, ?_, ?_⟩
  · intro k hinteger i
    constructor
    · intro hrange
      obtain ⟨s, rfl, hs⟩ := ScalarKind.exists_of_inRange hinteger hrange
      exact ⟨s, ⟨rfl, hs⟩, fun t ht => ScalarKind.eq_of_integer? ht.1 ht.2 hs⟩
    · rintro ⟨s, ⟨rfl, hs⟩, -⟩
      exact ScalarKind.inRange_of_integer? hs
  · intro q format hvarint
    refine ⟨fun s hkind w hroom => exists_run_script hvarint hkind hroom, ?_⟩
    intro bs r hbs hlength hr
    exact ⟨fun hunsigned => ⟨readsInteger_unsigned hvarint hbs hlength hr hunsigned,
        refuses_unsigned hvarint hbs hlength hr hunsigned⟩,
      fun hsigned => ⟨refuses_beyond_word hvarint hbs hlength hr hsigned, fun u hu =>
        ⟨readsInteger_signed hvarint hbs hlength hr hsigned hu,
          refuses_signed hvarint hbs hlength hr hsigned hu⟩⟩⟩

/-- Eight bits, signed and in a box as well as unsigned, at the ends of the range and beyond. -/
theorem accepts_exactly_range_eight_bits :
    let format := Level.level2.format
    let signed := ((ofKind .i8).withVarLength true).ensureWrapped
    let unsigned := (ofKind .u8).withVarLength true
    let w : Writer := ⟨#[0, 0], 0, #[], format, 0, by decide⟩
    let inside : Reader := ⟨[0xff, 0x01], 0, 2, format, 0, rfl⟩
    let outside : Reader := ⟨[0x80, 0x02], 0, 2, format, 0, rfl⟩
    let beyond : Reader := ⟨List.replicate 9 0x80 ++ [2], 0, 10, format, 0, rfl⟩
    ((zigzag (-128)).toNat < 2 ^ 8 ∧ ¬(zigzag 128).toNat < 2 ^ 8) ∧
      (∃! s : Scalar, s.kind = .i8 ∧ s.integer? = some (-128)) ∧
      (∃ w', (signed.script format (.wrapped (some ⟨.i8, -128⟩))).run w = .ok () w' ∧
        w'.written.toList = [0xff, 0x01]) ∧
      (signed.ReadsInteger format inside 2 (-128) ∧ unsigned.ReadsInteger format inside 2 255) ∧
      signed.decode format outside = .error (.integerOverflow "i8") (outside.advance 2) ∧
      unsigned.decode format outside = .error (.varintOverflow 8) (outside.advance 2) ∧
      signed.decode format beyond = .error (.varintOverflow 64) (beyond.advance 10) := by
  intro format signed unsigned w inside outside beyond
  obtain ⟨-, -, hbits, hmembers, hvarint⟩ := accepts_exactly_range
  obtain ⟨hwrite, hsigned⟩ := hvarint signed format rfl
  obtain ⟨-, hunsigned⟩ := hvarint unsigned format rfl
  have hbyte := hbits 8 (by decide) (by decide)
  have hinside : Terminated inside.ahead := .more (by decide) (.last (by decide))
  have houtside : Terminated outside.ahead := .more (by decide) (.last (by decide))
  -- The tenth group has room for one bit, and two would be `2 ^ 64`.
  have hbeyond : Terminated beyond.ahead := by
    iterate 9 refine .more (by decide) ?_
    exact .last (by decide)
  have hinto := hsigned _ inside hinside (by decide) (List.prefix_refl _)
  have hout := hsigned _ outside houtside (by decide) (List.prefix_refl _)
  refine ⟨⟨(hbyte _).2 (by decide), fun h => absurd ((hbyte _).1 h) (by decide)⟩,
    (hmembers .i8 rfl _).1 (by decide), ?_, ⟨?_, ?_⟩, ?_, ?_, ?_⟩
  · obtain ⟨w', hrun, hwritten, -⟩ := hwrite ⟨.i8, -128⟩ rfl w (by decide)
    exact ⟨w', hrun, hwritten.trans (by decide)⟩
  · exact ((hinto.2 rfl).2 255 (by decide)).1 (by decide)
  · exact ((hunsigned _ inside hinside (by decide) (List.prefix_refl _)).1 rfl).1 (by decide)
  · exact ((hout.2 rfl).2 256 (by decide)).2 (by decide)
  · exact ((hunsigned _ outside houtside (by decide) (List.prefix_refl _)).1 rfl).2 (by decide)
  · exact ((hsigned _ beyond hbeyond (by decide) (List.prefix_refl _)).2 rfl).1 (by decide)

end Primitive

end SchemaWire

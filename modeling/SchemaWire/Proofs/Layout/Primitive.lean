import SchemaWire.Layout.Primitive
import SchemaWire.Proofs.Scalar
import SchemaWire.Proofs.Wire.Script
import SchemaWire.Proofs.Wire.Varint
import SchemaWire.Proofs.Wire.Zigzag
/-!
# Scalars on the wire

A scalar takes one step to write and is read back from the bytes of this step.

* `ScalarKind.ofWord_toWord` and `ScalarKind.toWord_of_ofWord` — a scalar of an integer kind and the
  word of its varint determine each other.
* `Primitive.valid_script_iff` — a primitive accepts the scalars of its kind in its boxing.
* `Primitive.reads_decode` and `Primitive.yields_decode` — the two directions of reading. What is
  read can be written again in at most as many bytes, and where no integer is a varint in exactly
  the same ones.
-/

namespace SchemaWire

namespace ScalarKind

variable {k : ScalarKind} {s : Scalar} {u : UInt64}

theorem varintBits_le (k : ScalarKind) : k.varintBits ≤ 64 := by cases k <;> decide

/-- The numbers of the fixed-width form of a kind are those of its bits. -/
theorem pow_width (k : ScalarKind) : 256 ^ k.width = 2 ^ k.bits := by
  rw [bits, Nat.pow_mul]

/-- The word of an integer fits the bits at which it is read. -/
theorem toWord_lt (hinteger : s.kind.isInteger = true) :
    s.toWord.toNat < 2 ^ s.kind.varintBits := by
  have hword : s.toWord.toNat < 2 ^ 64 := s.toWord.toNat_lt
  have hbits := toBits_lt s
  obtain ⟨k, v⟩ := s
  cases k <;> try cases hinteger
  -- Signed integers go through zigzag into the full word; the others are their bits.
  case i8 | i16 | i32 | i64 => exact hword
  all_goals
    rw [pow_width] at hbits
    simp only [Scalar.toWord, UInt64.toNat_ofNat']
    exact Nat.lt_of_le_of_lt (Nat.mod_le _ _) hbits

/-- An integer is read back from its word. -/
theorem ofWord_toWord (hinteger : s.kind.isInteger = true) : s.kind.ofWord s.toWord = .ok s := by
  have hback := ofBits_toBits s
  have hbits := toBits_lt s
  obtain ⟨k, v⟩ := s
  cases k <;> try cases hinteger
  -- Zigzag and back is the identity, and the integer was in the range of its kind.
  case i8 | i16 | i32 | i64 =>
    have hlt := v.toInt_lt
    have hle := v.le_toInt
    simp [ofWord, Scalar.toWord, Varint.unzigzag_zigzag, holds, isSigned, bits, width]
    omega
  all_goals
    simp only [ofWord, Scalar.toWord, UInt64.toNat_ofNat']
    rw [Nat.mod_eq_of_lt (Nat.lt_of_lt_of_le hbits (by simp [width]))]
    exact hback

/-- A signed integer is read from a word only if it lies in the range of its kind. -/
theorem range_of_ofWord (hsigned : k.isSigned = true) (h : k.ofWord u = .ok s) :
    -(1 <<< (k.bits - 1) : Int) ≤ (Varint.unzigzag u).toInt ∧
      (Varint.unzigzag u).toInt < (1 <<< (k.bits - 1) : Int) := by
  cases hholds : k.holds (Varint.unzigzag u) with
  | true => exact of_decide_eq_true hholds
  | false =>
    simp only [ofWord, hsigned, hholds] at h
    cases h

/-- What is read from a word is an integer of that word. -/
theorem toWord_of_ofWord (hinteger : k.isInteger = true) (hu : u.toNat < 2 ^ k.varintBits)
    (h : k.ofWord u = .ok s) : s.kind = k ∧ s.toWord = u := by
  have hrange := fun hsigned => range_of_ofWord hsigned h
  -- The word was accepted, so a signed one lies in the range of its kind.
  have hok : ¬(k.isSigned && !k.holds (Varint.unzigzag u)) = true := by
    intro hover
    simp only [ofWord, if_pos hover] at h
    cases h
  simp only [ofWord, if_neg hok] at h
  cases k <;> try cases hinteger
  case i64 =>
    cases h
    exact ⟨rfl, Varint.zigzag_unzigzag u⟩
  case i8 | i16 | i32 =>
    cases h
    refine ⟨rfl, ?_⟩
    -- Inside the range of the kind nothing is lost on the way down from 64 bits.
    rw [Scalar.toWord]
    conv_rhs => rw [← Varint.zigzag_unzigzag u]
    congr 1
    rw [← Int64.toInt_inj]
    have hbounds := hrange rfl
    simp only [bits, width, Nat.reduceMul, Nat.reduceSub, Nat.reduceShiftLeft] at hbounds
    simp only [Int8.toInt_toInt64, Int64.toInt_toInt8, Int16.toInt_toInt64, Int64.toInt_toInt16,
      Int32.toInt_toInt64, Int64.toInt_toInt32]
    exact Int.bmod_eq_of_le (by omega) (by omega)
  -- The unsigned kinds take the word as their bits.
  all_goals
    rw [varintBits, if_neg (by decide), ← pow_width] at hu
    obtain ⟨hkind, hbits⟩ := toBits_of_ofBits hu h
    obtain ⟨k, v⟩ := s
    cases hkind
    refine ⟨rfl, ?_⟩
    change UInt64.ofNat (Scalar.toBits _) = u
    rw [hbits, UInt64.ofNat_toNat]

end ScalarKind

namespace Primitive

variable {q : Primitive} {format wire : WireFormat} {s : Scalar} {v : Value}

/-! ### Which values a primitive accepts -/

@[simp] theorem unbox_box (h : s.kind = q.kind) : q.unbox (q.box s) = .ok s := by
  unfold unbox box
  cases q.wrapped <;> simp [h]

theorem unbox_eq_ok_iff : q.unbox v = .ok s ↔ v = q.box s ∧ s.kind = q.kind := by
  constructor
  · intro h
    unfold unbox box at *
    -- Wrapped and unwrapped primitives take different values apart; all other values are refused.
    cases hw : q.wrapped <;> rw [hw] at h
    · cases v <;> simp only at h <;> try cases h
      split at h <;> cases h
      next hkind => exact ⟨rfl, hkind⟩
    · cases v <;> simp only at h <;> try cases h
      next b =>
        cases b <;> simp only at h <;> try cases h
        split at h <;> cases h
        next hkind => exact ⟨rfl, hkind⟩
  · rintro ⟨rfl, hkind⟩
    exact unbox_box hkind

theorem script_box (h : s.kind = q.kind) : q.script format (q.box s) = [q.step format s] := by
  simp [script, h]

/-- A primitive accepts the scalars of its kind, in its boxing. -/
theorem valid_script_iff :
    (q.script format v).Valid ↔ ∃ s, v = q.box s ∧ s.kind = q.kind := by
  constructor
  · intro h
    unfold script at h
    -- A script that is valid did not fail, so the value was of this kind.
    split at h
    · next s hs => exact ⟨s, unbox_eq_ok_iff.1 hs⟩
    · exact absurd h Script.not_valid_fail
  · rintro ⟨s, rfl, hkind⟩
    rw [script_box hkind, Script.valid_cons]
    refine ⟨?_, Script.valid_nil⟩
    unfold step
    split <;> exact trivial

/-! ### The two directions of reading -/

theorem isInteger_of_isVarint (h : q.isVarint format = true) : q.kind.isInteger = true :=
  q.isInteger_of_varLength (Bool.and_eq_true_iff.1 h).1

/-- Where a primitive is a varint, what it reads is made of the word of one. -/
theorem decode_of_isVarint (hvarint : q.isVarint format = true) :
    q.decode format =
      (do ofExcept ((q.kind.ofWord (← Reader.readVarint q.kind.varintBits)).map q.box)) := by
  unfold decode
  rw [if_pos hvarint]
  refine congrArg (Reader.readVarint q.kind.varintBits >>= ·) (funext fun u => ?_)
  cases q.kind.ofWord u <;> rfl

/-- A scalar is read back from the bytes of its step. -/
theorem reads_decode (h : s.kind = q.kind) :
    (q.decode format).Reads wire ((q.step format s).bytes wire) (q.box s) := by
  have hbox {e : Except DecodeError Scalar} (he : e = .ok s) :
      (do return q.box (← ofExcept e) : Decoder Value).Reads wire [] (q.box s) := by
    subst he
    exact (Decoder.reads_ofExcept s).map q.box
  unfold decode step
  -- A varint carries the word of the scalar, anything else its bits in as many bytes as it has.
  by_cases hvarint : q.isVarint format
  · have hinteger := isInteger_of_isVarint hvarint
    rw [← h] at hinteger ⊢
    rw [if_pos hvarint, if_pos hvarint]
    have hword : (Reader.readVarint s.kind.varintBits).Reads wire (Varint.encode s.toWord)
        s.toWord :=
      Decoder.reads_readVarint s.kind.varintBits_le (ScalarKind.toWord_lt hinteger)
    have := hword.bind (f := fun u => do return q.box (← ofExcept (s.kind.ofWord u)))
      (hbox (ScalarKind.ofWord_toWord hinteger))
    rwa [List.append_nil] at this
  · rw [if_neg hvarint, if_neg hvarint, ← h]
    have hnumber : (Reader.readFixed s.kind.width).Reads wire
        (wire.byteOrder.bytes s.kind.width s.toBits) s.toBits :=
      Decoder.reads_readFixed (ScalarKind.toBits_lt s)
    have := hnumber.bind (f := fun n => do return q.box (← ofExcept (s.kind.ofBits n)))
      (hbox (ScalarKind.ofBits_toBits s))
    rwa [List.append_nil] at this

/-- What a primitive reads is a scalar of its kind, which takes at most as many bytes to write. -/
theorem yields_decode :
    (q.decode format).Yields wire fun v bytes =>
      ∃ s : Scalar, s.kind = q.kind ∧ v = q.box s ∧
        ((q.step format s).bytes wire).length ≤ bytes.length ∧
        (format.varintIntegers = false → bytes = (q.step format s).bytes wire) := by
  have hbox (e : Except DecodeError Scalar) :
      (do return q.box (← ofExcept e) : Decoder Value).Yields wire fun v bytes =>
        ∃ s, e = .ok s ∧ v = q.box s ∧ bytes = [] := by
    refine (Decoder.yields_ofExcept e).bind ?_
    rintro s bytes ⟨rfl, rfl⟩
    exact Decoder.Yields.pure ⟨s, rfl, rfl, rfl⟩
  unfold decode step
  -- The same two forms: a varint may be spelled longer than it has to be, a number of fixed width
  -- may not.
  by_cases hvarint : q.isVarint format
  · simp only [hvarint, if_true]
    have hinteger := isInteger_of_isVarint hvarint
    refine (Decoder.yields_readVarint q.kind.varintBits_le).bind ?_
    rintro u bytes ⟨hlt, hle⟩
    refine (hbox _).mono ?_
    rintro v more ⟨s, hs, rfl, rfl⟩
    obtain ⟨hkind, hword⟩ := ScalarKind.toWord_of_ofWord hinteger hlt hs
    refine ⟨s, hkind, rfl, ?_, fun hformat => ?_⟩
    · rw [hword, List.append_nil]
      exact hle
    · simp [isVarint, hformat] at hvarint
  · simp only [hvarint]
    refine (Decoder.yields_readFixed q.kind.width).bind ?_
    rintro n bytes ⟨hlt, rfl⟩
    refine (hbox _).mono ?_
    rintro v more ⟨s, hs, rfl, rfl⟩
    obtain ⟨hkind, rfl⟩ := ScalarKind.toBits_of_ofBits hlt hs
    rw [List.append_nil]
    exact ⟨s, hkind, rfl, Nat.le_refl _, fun _ => rfl⟩

/-- No scalar takes fewer bytes than the least size of its primitive. -/
theorem minSize_le_length (s : Scalar) :
    q.minSize format ≤ ((q.step format s).bytes wire).length := by
  unfold minSize step
  split
  · exact Varint.length_encode s.toWord ▸ Varint.size_pos s.toWord
  · exact Nat.le_of_eq (ByteOrder.length_bytes _ _ _).symm

theorem minSize_pos : 0 < q.minSize format := by
  unfold minSize
  split
  · exact Nat.one_pos
  · exact q.kind.width_pos

end Primitive

end SchemaWire

import Mathlib.Algebra.Ring.Nat
import SchemaWire.Wire.FixedWidth
/-!
# Fixed-width numbers are read back

`ByteOrder.bytes` and `ByteOrder.number` undo each other, in both byte orders: a number that fits
its width is read back from its bytes (`ByteOrder.number_bytes`), and any bytes are those of the
number that is read from them (`ByteOrder.bytes_number`).
-/

namespace SchemaWire

theorem ofAscendingBytes_lt (bs : List UInt8) : ofAscendingBytes bs < 256 ^ bs.length := by
  induction bs with
  | nil => simp [ofAscendingBytes]
  | cons b bs ih =>
    have := b.toNat_lt
    simp only [ofAscendingBytes, List.length_cons, Nat.pow_succ]
    omega

theorem ofAscendingBytes_ascendingBytes {width n : Nat} (h : n < 256 ^ width) :
    ofAscendingBytes (ascendingBytes width n) = n := by
  induction width generalizing n with
  | zero => simp_all [ascendingBytes, ofAscendingBytes]
  | succ width ih =>
    have := ih (n := n / 256) (by rw [Nat.pow_succ] at h; omega)
    simp only [ascendingBytes, ofAscendingBytes, this, UInt8.toNat_ofNat']
    omega

theorem ascendingBytes_ofAscendingBytes (bs : List UInt8) :
    ascendingBytes bs.length (ofAscendingBytes bs) = bs := by
  induction bs with
  | nil => rfl
  | cons b bs ih =>
    -- The first byte is the lowest digit, the others are the rest of the number.
    have hb := b.toNat_lt
    have hdiv : (b.toNat + 256 * ofAscendingBytes bs) / 256 = ofAscendingBytes bs := by omega
    have hmod : UInt8.ofNat (b.toNat + 256 * ofAscendingBytes bs) = b := by
      apply UInt8.toNat_inj.1
      rw [UInt8.toNat_ofNat']
      omega
    simp only [List.length_cons, ofAscendingBytes, ascendingBytes, hdiv, hmod, ih]

namespace ByteOrder

theorem number_lt (o : ByteOrder) (bs : List UInt8) : o.number bs < 256 ^ bs.length := by
  cases o
  · simpa [number] using ofAscendingBytes_lt bs.reverse
  · exact ofAscendingBytes_lt bs

theorem number_bytes (o : ByteOrder) {width n : Nat} (h : n < 256 ^ width) :
    o.number (o.bytes width n) = n := by
  cases o <;> simp [number, bytes, ofAscendingBytes_ascendingBytes h]

theorem bytes_number (o : ByteOrder) (bs : List UInt8) :
    o.bytes bs.length (o.number bs) = bs := by
  cases o
  · have := ascendingBytes_ofAscendingBytes bs.reverse
    simp only [List.length_reverse] at this
    simp [number, bytes, this]
  · exact ascendingBytes_ofAscendingBytes bs

end ByteOrder

end SchemaWire

import Mathlib

/-!
# Big-endian byte strings

A natural number as a fixed number of bytes, most significant first, and back.

* `encode w n`, the `w` bytes of `n`; bits above `8 * w` are dropped;
* `decode l`, the number whose bytes are `l`;
* `decode_encode` and `encode_decode`, the two round trips.

Both are structural recursions, so the kernel evaluates them on numerals.
-/

namespace BigEndian

/-- The `w` big-endian bytes of `n`. -/
def encode : ℕ → ℕ → List UInt8
  | 0, _ => []
  | w + 1, n => UInt8.ofNat (n / 256 ^ w) :: encode w n

/-- The number with the given big-endian bytes. -/
def decode : List UInt8 → ℕ
  | [] => 0
  | b :: bs => b.toNat * 256 ^ bs.length + decode bs

@[simp] theorem length_encode (w n : ℕ) : (encode w n).length = w := by
  induction w with
  | zero => rfl
  | succ w ih => simp [encode, ih]

theorem decode_lt (l : List UInt8) : decode l < 256 ^ l.length := by
  induction l with
  | nil => simp [decode]
  | cons b bs ih =>
    have hb : b.toNat + 1 ≤ 256 := b.toNat_lt
    calc decode (b :: bs) < b.toNat * 256 ^ bs.length + 256 ^ bs.length := by
          simpa [decode] using ih
      _ = (b.toNat + 1) * 256 ^ bs.length := by ring
      _ ≤ 256 * 256 ^ bs.length := Nat.mul_le_mul_right _ hb
      _ = 256 ^ (b :: bs).length := by rw [List.length_cons, pow_succ']

theorem decode_encode (w n : ℕ) : decode (encode w n) = n % 256 ^ w := by
  induction w with
  | zero => simp [encode, decode, Nat.mod_one]
  | succ w ih =>
    have hb : (UInt8.ofNat (n / 256 ^ w)).toNat = n / 256 ^ w % 256 := UInt8.toNat_ofNat'
    rw [encode, decode, ih, length_encode, hb, pow_succ, Nat.mod_mul]
    ring

/-- The bytes of a number depend on its low part alone. -/
theorem encode_add_mul (w m k : ℕ) : encode w (m + k * 256 ^ w) = encode w m := by
  induction w generalizing k with
  | zero => rfl
  | succ w ih =>
    have hsplit : m + k * 256 ^ (w + 1) = m + k * 256 * 256 ^ w := by ring
    have hhead : UInt8.ofNat ((m + k * 256 * 256 ^ w) / 256 ^ w) = UInt8.ofNat (m / 256 ^ w) := by
      rw [Nat.add_mul_div_right _ _ (by positivity)]
      apply UInt8.toNat_inj.1
      rw [UInt8.toNat_ofNat', UInt8.toNat_ofNat']
      omega
    rw [hsplit, encode, encode, ih, hhead]

theorem encode_decode (l : List UInt8) : encode l.length (decode l) = l := by
  induction l with
  | nil => rfl
  | cons b bs ih =>
    have hlow : (decode bs + b.toNat * 256 ^ bs.length) / 256 ^ bs.length = b.toNat := by
      rw [Nat.add_mul_div_right _ _ (by positivity), Nat.div_eq_of_lt (decode_lt bs), Nat.zero_add]
    rw [List.length_cons, encode, decode, Nat.add_comm, encode_add_mul, ih, hlow, UInt8.ofNat_toNat]

theorem decode_encode_of_lt {w n : ℕ} (h : n < 256 ^ w) : decode (encode w n) = n := by
  rw [decode_encode, Nat.mod_eq_of_lt h]

theorem encode_decode_of_length {w : ℕ} {l : List UInt8} (h : l.length = w) :
    encode w (decode l) = l := h ▸ encode_decode l

end BigEndian

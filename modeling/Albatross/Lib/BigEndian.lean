import Mathlib

/- Fixed-width big-endian naturals over bytes: the bytes of a number, most significant
   first, and the number a byte string spells. -/
namespace Albatross

namespace BigEndian

/-- The number the bytes spell, most significant first. -/
def decode (bytes : List UInt8) : Nat := bytes.foldl (fun acc byte => acc * 256 + byte.toNat) 0

/-- The low `width` bytes of `n`, most significant first. -/
def encode : Nat → Nat → List UInt8
  | 0, _ => []
  | width + 1, n => encode width (n / 256) ++ [UInt8.ofNat (n % 256)]

@[simp] theorem length_encode (width n : Nat) : (encode width n).length = width := by
  induction width generalizing n with
  | zero => rfl
  | succ width ih => simp [encode, ih]

theorem decode_append_byte (bytes : List UInt8) (byte : UInt8) :
    decode (bytes ++ [byte]) = decode bytes * 256 + byte.toNat := by
  simp [decode, List.foldl_append]

theorem decode_encode (width n : Nat) : decode (encode width n) = n % 256 ^ width := by
  induction width generalizing n with
  | zero => simp [encode, decode, Nat.mod_one]
  | succ width ih =>
    have low : (UInt8.ofNat (n % 256)).toNat = n % 256 := by simp
    rw [encode, decode_append_byte, ih, low]
    -- the low byte comes last, under the bytes of `n / 256` shifted up by one
    rw [Nat.pow_succ, Nat.mul_comm (256 ^ width), Nat.mod_mul]
    omega

theorem decode_encode_of_lt {width n : Nat} (fits : n < 256 ^ width) : decode (encode width n) = n := by
  rw [decode_encode, Nat.mod_eq_of_lt fits]

end BigEndian

end Albatross

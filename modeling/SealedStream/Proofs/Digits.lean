import Mathlib.Tactic.Linarith
import SealedStream.Bytes

/-!
# Base-256 digits

Writing a number in a fixed width and reading it back loses exactly the digits
above that width, and what is read from a byte string is always a number that
fits its width.  In that width no other byte string stands for the number.
-/

namespace SealedStream

namespace Bytes

theorem toNatLE_ofNatLE (w n : Nat) : toNatLE (ofNatLE w n) = n % 256 ^ w := by
  induction w generalizing n with
  | zero => simp [ofNatLE, toNatLE, Nat.mod_one]
  | succ w ih =>
      have byte : (UInt8.ofNat n).toNat = n % 256 := UInt8.toNat_ofNat'
      rw [ofNatLE, toNatLE, ih, byte, pow_succ, Nat.mul_comm (256 ^ w) 256,
        Nat.mod_mul]

theorem toNatLE_zeros (n : Nat) : toNatLE (zeros n) = 0 := by
  induction n with
  | zero => rfl
  | succ n ih =>
      have hrest : toNatLE (List.replicate n 0) = 0 := ih
      rw [zeros, List.replicate_succ, toNatLE, hrest]
      rfl

theorem toNatLE_lt (bs : Bytes) : toNatLE bs < 256 ^ bs.length := by
  induction bs with
  | nil => simp [toNatLE]
  | cons b bs ih =>
      have hb : b.toNat < 256 := b.toNat_lt
      rw [toNatLE, List.length_cons, pow_succ]
      omega

/-- Read from the other end, the digits are those with the least significant
one first. -/
theorem toNatBE_reverse (bs : Bytes) : toNatBE bs.reverse = toNatLE bs := by
  induction bs with
  | nil => rfl
  | cons b bs ih =>
      have step : toNatBE (bs.reverse ++ [b]) = 256 * toNatBE bs.reverse + b.toNat := by
        simp [toNatBE, List.foldl_append]
      rw [List.reverse_cons, step, ih, toNatLE, Nat.add_comm]

theorem toNatBE_ofNatBE (w n : Nat) : toNatBE (ofNatBE w n) = n % 256 ^ w := by
  rw [ofNatBE, toNatBE_reverse, toNatLE_ofNatLE]

theorem toNatBE_lt (bs : Bytes) : toNatBE bs < 256 ^ bs.length := by
  have hdigits := toNatLE_lt bs.reverse
  rwa [← toNatBE_reverse, List.reverse_reverse, List.length_reverse] at hdigits

/-- In its own width a byte string is the only one with its digits. -/
theorem ofNatLE_toNatLE (bs : Bytes) : ofNatLE bs.length (toNatLE bs) = bs := by
  induction bs with
  | nil => rfl
  | cons b bs ih =>
      have hb : b.toNat < 256 := b.toNat_lt
      have hlow : UInt8.ofNat (b.toNat + 256 * toNatLE bs) = b := by
        apply UInt8.toNat_inj.1
        rw [UInt8.toNat_ofNat']
        omega
      have hhigh : (b.toNat + 256 * toNatLE bs) / 256 = toNatLE bs := by omega
      rw [List.length_cons, toNatLE, ofNatLE, hlow, hhigh, ih]

theorem ofNatBE_toNatBE (bs : Bytes) : ofNatBE bs.length (toNatBE bs) = bs := by
  have hdigits := ofNatLE_toNatLE bs.reverse
  rw [List.length_reverse, ← toNatBE_reverse, List.reverse_reverse] at hdigits
  rw [ofNatBE, hdigits, List.reverse_reverse]

end Bytes

end SealedStream

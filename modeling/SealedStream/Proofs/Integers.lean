import Mathlib.Tactic.Ring
import SealedStream.IntForm.Codec
import SealedStream.Proofs.Digits

/-!
# Integers on the wire

A number that a form can hold is found again at the front of any byte string
that begins with its bytes, whatever follows.  So the bytes of one number are
never a proper prefix of the bytes of another, and a chunk number can be told
from the payload behind it.
-/

namespace SealedStream

namespace Varint

theorem toNat_ofNat_of_lt {n : Nat} (h : n < 256) : (UInt8.ofNat n).toNat = n := by
  rw [UInt8.toNat_ofNat', Nat.mod_eq_of_lt h]

theorem length_groups_pos (k n : Nat) : 0 < (groups (k + 1) n).length := by
  unfold groups
  split <;> simp

theorem length_groups_le (k n : Nat) : (groups k n).length ≤ k := by
  induction k generalizing n with
  | zero => simp [groups]
  | succ k ih =>
      unfold groups
      split
      · simp
      · simpa using ih (n / 128)

/-- The last group of a varint ends it. -/
theorem push_last {p : Partial} {n : Nat} (hcount : p.count < maxWidth)
    (hn : n < 128) (hlast : p.count + 1 = maxWidth → n ≤ 1) :
    p.push (UInt8.ofNat n) = .done (p.value + n * 2 ^ (7 * p.count)) := by
  have byte : (UInt8.ofNat n).toNat = n := toNat_ofNat_of_lt (by omega)
  have room : ¬ (maxWidth ≤ p.count ∨ p.count + 1 = maxWidth ∧ 1 < n) := by
    rintro (h | ⟨h, h'⟩)
    · omega
    · have := hlast h
      omega
  simp only [Partial.push, byte, room, if_false, hn, if_true, Nat.mod_eq_of_lt,
    Nat.shiftLeft_eq]

/-- A group with its top bit set is added and more are awaited. -/
theorem push_more {p : Partial} {n : Nat} (hcount : p.count + 1 < maxWidth) :
    p.push (UInt8.ofNat (n % 128 + 128)) =
      .more ⟨p.value + n % 128 * 2 ^ (7 * p.count), p.count + 1⟩ := by
  have byte : (UInt8.ofNat (n % 128 + 128)).toNat = n % 128 + 128 :=
    toNat_ofNat_of_lt (by omega)
  have room : ¬ (maxWidth ≤ p.count ∨
      p.count + 1 = maxWidth ∧ 1 < n % 128 + 128) := by
    omega
  have group : (n % 128 + 128) % 128 = n % 128 := by omega
  have open_ : ¬ n % 128 + 128 < 128 := by omega
  simp only [Partial.push, byte, room, if_false, group, open_, Nat.shiftLeft_eq]

/-- The groups of a number, taken in after `p.count` others, add the number at
its place.  The bound says that the number does not reach past bit 63. -/
theorem scanFrom_groups (k : Nat) (p : Partial) (n : Nat) (rest : Bytes)
    (hcount : p.count + (k + 1) = maxWidth) (hn : n < 2 ^ (64 - 7 * p.count)) :
    scanFrom p (groups (k + 1) n ++ rest) =
      .whole (p.value + n * 2 ^ (7 * p.count))
        (p.count + (groups (k + 1) n).length) := by
  have width : maxWidth = 10 := rfl
  induction k generalizing p n with
  | zero =>
      -- The tenth byte holds bit 63 alone.
      have hc : p.count = 9 := by omega
      have small : n < 2 := by simpa [hc] using hn
      have last := push_last (p := p) (n := n) (by omega) (by omega) (by omega)
      simp [groups, show n < 128 by omega, scanFrom, last]
  | succ k ih =>
      by_cases hlt : n < 128
      · have last := push_last (p := p) (n := n) (by omega) hlt (by omega)
        have one : groups (k + 1 + 1) n = [UInt8.ofNat n] := by
          rw [groups, if_pos hlt]
        simp [one, scanFrom, last]
      · have more := push_more (p := p) (n := n) (by omega)
        have split : groups (k + 1 + 1) n =
            UInt8.ofNat (n % 128 + 128) :: groups (k + 1) (n / 128) := by
          rw [groups, if_neg hlt]
        -- A number of more than one group leaves seven bits of room at least.
        have exponent : 64 - 7 * p.count = 7 + (64 - 7 * (p.count + 1)) := by
          by_contra hne
          have h0 : 64 - 7 * p.count ≤ 7 := by omega
          have := Nat.pow_le_pow_right (n := 2) (by decide) h0
          omega
        have rest_lt : n / 128 < 2 ^ (64 - 7 * (p.count + 1)) := by
          apply Nat.div_lt_of_lt_mul
          rw [exponent, pow_add] at hn
          exact hn
        have next := ih ⟨p.value + n % 128 * 2 ^ (7 * p.count), p.count + 1⟩
          (n / 128) (by simp only; omega) rest_lt
        have place : 2 ^ (7 * (p.count + 1)) = 128 * 2 ^ (7 * p.count) := by
          ring
        have value : p.value + n % 128 * 2 ^ (7 * p.count) +
            n / 128 * 2 ^ (7 * (p.count + 1)) = p.value + n * 2 ^ (7 * p.count) := by
          rw [place, Nat.add_assoc, ← Nat.mul_assoc, ← Nat.add_mul,
            show n % 128 + n / 128 * 128 = n by omega]
        simp only [split, List.cons_append, scanFrom, more, next, value,
          List.length_cons, IntForm.Scan.whole.injEq, true_and]
        omega

end Varint

namespace IntForm

theorem capacity_le (f : IntForm) : f.capacity ≤ intBound := by
  cases f <;> decide

theorem capacity_pos (f : IntForm) : 0 < f.capacity := by
  cases f <;> decide

/-- Encoding succeeds exactly below the capacity of the form. -/
theorem encode_eq_ok_iff {f : IntForm} {n : Nat} {bs : Bytes} :
    f.encode n = .ok bs ↔ n < f.capacity ∧ bs = f.bytes n := by
  unfold encode width?
  by_cases h : n < f.capacity
  · simp [h, eq_comm]
  · simp [h]

theorem encode_of_lt {f : IntForm} {n : Nat} (h : n < f.capacity) :
    f.encode n = .ok (f.bytes n) :=
  encode_eq_ok_iff.2 ⟨h, rfl⟩

theorem length_bytes_pos (f : IntForm) (n : Nat) : 0 < (f.bytes n).length := by
  cases f with
  | varint => exact Varint.length_groups_pos 9 n
  | fixed1 | fixed2 | fixed4 | fixed8 => simp [bytes, maxWidth]

theorem length_bytes_le (f : IntForm) (n : Nat) : (f.bytes n).length ≤ f.maxWidth := by
  cases f with
  | varint => exact Varint.length_groups_le 10 n
  | fixed1 | fixed2 | fixed4 | fixed8 => simp [bytes]

/-- The bytes of a number are recognised whatever follows them. -/
theorem scan_bytes_append {f : IntForm} {n : Nat} (h : n < f.capacity)
    (rest : Bytes) :
    f.scan (f.bytes n ++ rest) = .whole n (f.bytes n).length := by
  have fixed (w : Nat) (hn : n < 256 ^ w) :
      scanFixed w (Bytes.ofNatBE w n ++ rest) =
        .whole n (Bytes.ofNatBE w n).length := by
    have long : ¬ (Bytes.ofNatBE w n ++ rest).length < w := by
      simp
    rw [scanFixed, if_neg long, List.take_left' (Bytes.length_ofNatBE w n),
      Bytes.toNatBE_ofNatBE, Nat.mod_eq_of_lt hn, Bytes.length_ofNatBE]
  cases f with
  | varint =>
      have whole := Varint.scanFrom_groups 9 .start n rest rfl h
      have value : Varint.Partial.start.value +
          n * 2 ^ (7 * Varint.Partial.start.count) = n := by
        simp [Varint.Partial.start]
      rw [value] at whole
      simpa only [scan, bytes, Varint.encode, Varint.maxWidth,
        Varint.Partial.start, Nat.zero_add] using whole
  | fixed1 => exact fixed 1 h
  | fixed2 => exact fixed 2 h
  | fixed4 => exact fixed 4 h
  | fixed8 => exact fixed 8 h

/-- Decoding takes the number off the front. -/
theorem decode_bytes_append {f : IntForm} {n : Nat} (h : n < f.capacity)
    (rest : Bytes) :
    f.decode (f.bytes n ++ rest) = .ok (n, (f.bytes n).length) := by
  rw [decode, scan_bytes_append h rest]

end IntForm

end SealedStream

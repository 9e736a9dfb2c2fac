/-!
# Byte strings

Byte strings are lists of octets.  Read as base-256 digits they are numbers in
two ways: with the least significant digit first (nonce counters, field
elements) or last (fixed-width integers).  For a fixed width, writing a number
and reading it back loses exactly the digits above that width.
-/

namespace SealedStream

/-- A byte string: plaintext, ciphertext, key, nonce or frame. -/
abbrev Bytes := List UInt8

namespace Bytes

/-- The number whose base-256 digits, least significant first, are the bytes. -/
def toNatLE : Bytes → Nat
  | [] => 0
  | b :: bs => b.toNat + 256 * toNatLE bs

/-- The number whose base-256 digits, most significant first, are the bytes. -/
def toNatBE (bs : Bytes) : Nat :=
  bs.foldl (fun n b => 256 * n + b.toNat) 0

/-- The `width` lowest base-256 digits of a number, least significant first. -/
def ofNatLE : (width n : Nat) → Bytes
  | 0, _ => []
  | w + 1, n => UInt8.ofNat n :: ofNatLE w (n / 256)

/-- The `width` lowest base-256 digits of a number, most significant first. -/
def ofNatBE (width n : Nat) : Bytes :=
  (ofNatLE width n).reverse

/-- Bytewise exclusive or, as long as the shorter argument. -/
def xor (xs ys : Bytes) : Bytes :=
  List.zipWith (· ^^^ ·) xs ys

/-- Run through a byte string in pieces of `n` bytes, at most `k` of them; the
last piece may be shorter. -/
def foldPieces {α : Type} (n : Nat) (f : α → Bytes → α) : (k : Nat) → α → Bytes → α
  | 0, a, _ => a
  | k + 1, a, bs =>
      if bs.isEmpty then a else foldPieces n f k (f a (bs.take n)) (bs.drop n)

/-- The pieces of `n` bytes that make up a byte string, in order; the last one
may be shorter. -/
def pieces (n : Nat) (bs : Bytes) : List Bytes :=
  (foldPieces n (fun ps p => p :: ps) bs.length [] bs).reverse

/-- Zero bytes. -/
def zeros (n : Nat) : Bytes :=
  List.replicate n 0

/-- The zero bytes that bring a byte string to a multiple of `n` bytes. -/
def padding (n : Nat) (bs : Bytes) : Bytes :=
  zeros ((n - bs.length % n) % n)

@[simp] theorem length_ofNatLE (w n : Nat) : (ofNatLE w n).length = w := by
  induction w generalizing n with
  | zero => rfl
  | succ w ih => simp [ofNatLE, ih]

@[simp] theorem length_ofNatBE (w n : Nat) : (ofNatBE w n).length = w := by
  simp [ofNatBE]

/-- Masking twice with the same bytes gives the text back. -/
theorem xor_xor_cancel (text mask : Bytes) (h : text.length ≤ mask.length) :
    xor (xor text mask) mask = text := by
  induction text generalizing mask with
  | nil => simp [xor]
  | cons t text ih =>
      cases mask with
      | nil => simp at h
      | cons m mask =>
          have := ih mask (by simpa using h)
          simp only [xor, List.zipWith_cons_cons] at this ⊢
          rw [this, UInt8.xor_assoc, UInt8.xor_self, UInt8.xor_zero]

theorem length_xor (text mask : Bytes) :
    (xor text mask).length = min text.length mask.length := by
  simp [xor]

end Bytes

end SealedStream

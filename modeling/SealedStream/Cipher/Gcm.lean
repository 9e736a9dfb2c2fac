import SealedStream.Cipher.Aes

/-!
# Galois counter mode

The keystream is the encryption of a counter that stands behind the nonce,
from two upwards.  The tag is a polynomial hash of the ciphertext over the
field of `2 ^ 128` elements, masked with the encryption of the counter one.

Field elements are written with the coefficient of the constant term as the
highest bit, so the product with the generator shifts to the right.
-/

namespace SealedStream

namespace Gcm

/-- An element of the field of `2 ^ 128` elements, highest bits first. -/
structure Element where
  hi : UInt64
  lo : UInt64
  deriving DecidableEq, Repr

namespace Element

/-- The sum. -/
def add (x y : Element) : Element :=
  ⟨x.hi ^^^ y.hi, x.lo ^^^ y.lo⟩

/-- Add to `z` the multiples of `v` that the `k` highest bits of `x` ask for;
`v` is multiplied by the generator from bit to bit. -/
def mulBits : (k : Nat) → (xhi xlo vhi vlo zhi zlo : UInt64) → Element
  | 0, _, _, _, _, zhi, zlo => ⟨zhi, zlo⟩
  | k + 1, xhi, xlo, vhi, vlo, zhi, zlo =>
      let mask := (0 : UInt64) - (xhi >>> 63)
      let carry := (0 : UInt64) - (vlo &&& 1)
      mulBits k ((xhi <<< 1) ||| (xlo >>> 63)) (xlo <<< 1)
        ((vhi >>> 1) ^^^ (carry &&& 0xe100000000000000))
        ((vlo >>> 1) ||| (vhi <<< 63))
        (zhi ^^^ (vhi &&& mask)) (zlo ^^^ (vlo &&& mask))

/-- The product. -/
def mul (x y : Element) : Element :=
  mulBits 128 x.hi x.lo y.hi y.lo 0 0

/-- The element of at most sixteen bytes; missing ones are zero. -/
def ofBytes (bs : Bytes) : Element :=
  let n := Bytes.toNatBE (bs ++ Bytes.zeros (16 - bs.length))
  ⟨UInt64.ofNat (n >>> 64), UInt64.ofNat n⟩

/-- The sixteen bytes of an element. -/
def bytes (x : Element) : Bytes :=
  Bytes.ofNatBE 8 x.hi.toNat ++ Bytes.ofNatBE 8 x.lo.toNat

end Element

/-- The block for a counter behind a nonce of twelve bytes. -/
def counterBlock (nonce : Bytes) (counter : Nat) : Aes.Block :=
  .ofBytes (nonce ++ Bytes.ofNatBE 4 counter)

/-- `n` blocks of keystream. -/
def keystream (keys : Aes.Schedule) (nonce : Bytes) (n : Nat) : Bytes :=
  (List.range n).flatMap fun i =>
    (Aes.encrypt keys (counterBlock nonce (i + 2))).bytes

/-- The polynomial hash of a ciphertext, its length in bits last. -/
def hash (h : Element) (text : Bytes) : Element :=
  let absorb (acc : Element) (piece : Bytes) : Element :=
    (acc.add (.ofBytes piece)).mul h
  let value := Bytes.foldPieces 16 absorb text.length ⟨0, 0⟩ text
  (value.add ⟨0, UInt64.ofNat (8 * text.length)⟩).mul h

/-- The 16-byte tag of a ciphertext. -/
def tag (keys : Aes.Schedule) (h : Element) (nonce text : Bytes) : Bytes :=
  let mask := (Aes.encrypt keys (counterBlock nonce 1)).bytes
  Bytes.xor (hash h text).bytes mask

@[simp] theorem length_tag (keys : Aes.Schedule) (h : Element)
    (nonce text : Bytes) : (tag keys h nonce text).length = 16 := by
  simp [tag, Bytes.xor, Element.bytes, Aes.Block.bytes, Aes.Column.bytes]

end Gcm

end SealedStream

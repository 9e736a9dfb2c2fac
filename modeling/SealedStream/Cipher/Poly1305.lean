import SealedStream.Bytes

/-!
# Poly1305

A one-time authenticator.  The message is cut into pieces of 16 bytes, each
read as a number with a one put above its last byte, and the pieces are the
coefficients of a polynomial that is evaluated at `r` modulo `2 ^ 130 - 5`.
The tag is that value plus `s`, in its lowest 16 bytes.
-/

namespace SealedStream

namespace Poly1305

/-- The prime modulus. -/
def modulus : Nat := 0x3fffffffffffffffffffffffffffffffb

/-- The bits of the first half of a key that may be set. -/
def clampMask : Nat := 0x0ffffffc0ffffffc0ffffffc0fffffff

/-- Take in one piece of the message. -/
def absorb (r acc : Nat) (piece : Bytes) : Nat :=
  (acc + Bytes.toNatLE (piece ++ [1])) * r % modulus

/-- The 16-byte tag of a message under a one-time key of 32 bytes. -/
def tag (key message : Bytes) : Bytes :=
  let r := Bytes.toNatLE (key.take 16) &&& clampMask
  let s := Bytes.toNatLE ((key.drop 16).take 16)
  let value := Bytes.foldPieces 16 (absorb r) message.length 0 message
  Bytes.ofNatLE 16 (value + s)

@[simp] theorem length_tag (key message : Bytes) :
    (tag key message).length = 16 := by
  simp [tag]

end Poly1305

end SealedStream

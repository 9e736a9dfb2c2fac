import SealedStream.Failure

/-!
# Counting nonces

A nonce counter is a byte string read as a number, least significant byte
first, and counts up without ever wrapping: when every byte is `0xff` there is
no next value.
-/

namespace SealedStream

/-- A nonce that is counted up. -/
abbrev NonceCounter := Bytes

namespace NonceCounter

/-- The counter zero of a width. -/
def zero (width : Nat) : NonceCounter :=
  Bytes.zeros width

/-- No value is left after this one. -/
def isLast (c : NonceCounter) : Bool :=
  c.all (· == 0xff)

/-- Add one, carrying to the right; past the last value it wraps. -/
def carry : Bytes → Bytes
  | [] => []
  | b :: bs => if b = 0xff then 0 :: carry bs else (b + 1) :: bs

/-- The next value, if there is one. -/
def next (c : NonceCounter) : Except Failure NonceCounter :=
  if c.isLast then .error .nonceExhausted else .ok (carry c)

/-- Move a counter on.  Where no value is left it stays as it is. -/
def increment (c : NonceCounter) : Except Failure Unit × NonceCounter :=
  match c.next with
  | .ok c' => (.ok (), c')
  | .error f => (.error f, c)

end NonceCounter

end SealedStream

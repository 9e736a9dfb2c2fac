import SealedStream.Failure

/-!
# Encoding and decoding integers

`encode` refuses exactly the numbers that have no width in the form, and so
does `encodeOnto`, which puts the bytes behind others.  `decode` takes one
number off the front of a byte string and says how many bytes that was.

`Varint.Register` is the same for varints as a machine does it, in words of 64
bits.
-/

namespace SealedStream

namespace IntForm

/-- The bytes of a number, or `intTooWide` if the form cannot hold it. -/
def encode (f : IntForm) (n : Nat) : Except Failure Bytes :=
  match f.width? n with
  | some _ => .ok (f.bytes n)
  | none => .error (.intTooWide n f)

/-- Append the bytes of a number to what has been put together, and say how many they
are.  A number that the form cannot hold leaves it as it was. -/
def encodeOnto (f : IntForm) (n : Nat) (out : Bytes) : Except Failure Nat × Bytes :=
  match f.width? n with
  | some width => (.ok width, out ++ f.bytes n)
  | none => (.error (.intTooWide n f), out)

/-- The number at the front of a byte string and the count of its bytes.
Short and malformed input are both `ciphertextInvalid`. -/
def decode (f : IntForm) (bs : Bytes) : Except Failure (Nat × Nat) :=
  match f.scan bs with
  | .whole value used => .ok (value, used)
  | .malformed | .incomplete => .error .ciphertextInvalid

end IntForm

/-! ## Varints in a register -/

namespace Varint

/-- A varint that is put together in a register of 64 bits. -/
structure Register where
  value : UInt64
  /-- How far the next group is shifted. -/
  shift : UInt64
  count : Nat
  deriving DecidableEq, Repr

namespace Register

/-- Nothing taken in yet. -/
def start : Register :=
  ⟨0, 0, 0⟩

/-- The low seven bits of a byte, where the register expects them. -/
def group (r : Register) (b : UInt8) : UInt64 :=
  (b &&& 0x7f).toUInt64 <<< r.shift

/-- Take in the next byte, and say whether it is the last. -/
def push (r : Register) (b : UInt8) : Except Failure (Bool × Register) :=
  if maxWidth < r.count + 1 ∨ r.count + 1 = maxWidth ∧ 1 < b then .error .ciphertextInvalid
  else .ok (b &&& 0x80 = 0, ⟨r.value ||| r.group b, r.shift + 7, r.count + 1⟩)

/-- Take in byte after byte up to the last one. -/
def decode (r : Register) : Bytes → Except Failure (UInt64 × Nat)
  | [] => .error .ciphertextInvalid
  | b :: bs =>
      match r.push b with
      | .error f => .error f
      | .ok (true, r') => .ok (r'.value, r'.count)
      | .ok (false, r') => r'.decode bs

end Register

end Varint

end SealedStream

import SealedStream.Bytes

/-!
# Integers on the wire

Chunk lengths and chunk counters are numbers below `2 ^ 64`.  They are written
either as a varint, seven bits to a byte with the least significant group
first and the top bit set on every byte but the last, or big-endian in a fixed
width of one, two, four or eight bytes.

A varint has at most ten bytes.  `Varint.Partial.push` takes in one byte at a
time and is shared by the decoder of byte strings and the decoder of sources,
so the two agree on every malformed input.
-/

namespace SealedStream

/-- How an integer is laid out on the wire. -/
inductive IntForm
  | varint
  | fixed1
  | fixed2
  | fixed4
  | fixed8
  deriving DecidableEq, Repr

/-- Every integer of a stream is below this bound. -/
def intBound : Nat := 0x10000000000000000

namespace Varint

/-- The longest varint of a number below `2 ^ 64`. -/
def maxWidth : Nat := 10

/-- Seven-bit groups of a number, least significant first, at most `k` of
them; every byte but the last has its top bit set. -/
def groups : (k n : Nat) → Bytes
  | 0, _ => []
  | k + 1, n =>
      if n < 128 then [UInt8.ofNat n]
      else UInt8.ofNat (n % 128 + 128) :: groups k (n / 128)

/-- The varint of a number below `2 ^ 64`. -/
def encode (n : Nat) : Bytes :=
  groups maxWidth n

/-- The number of binary digits of a number; zero has none. -/
def bitLength (n : Nat) : Nat :=
  if n = 0 then 0 else Nat.log2 n + 1

/-- The length of a varint: one byte for every seven bits begun. -/
def width (n : Nat) : Nat :=
  (max (bitLength n) 1 + 6) / 7

/-- What is known of a varint after `count` of its bytes. -/
structure Partial where
  value : Nat
  count : Nat
  deriving DecidableEq, Repr

/-- Nothing read yet. -/
def Partial.start : Partial :=
  ⟨0, 0⟩

/-- What one more byte does to a varint. -/
inductive Step
  | more (state : Partial)
  | done (value : Nat)
  | malformed
  deriving DecidableEq, Repr

/-- Take in the next byte.  The tenth byte holds bit 63 alone, so it is at
most one, and there is no eleventh. -/
def Partial.push (p : Partial) (b : UInt8) : Step :=
  if maxWidth ≤ p.count ∨ (p.count + 1 = maxWidth ∧ 1 < b.toNat) then
    .malformed
  else
    let value := p.value + (b.toNat % 128) <<< (7 * p.count)
    if b.toNat < 128 then .done value else .more ⟨value, p.count + 1⟩

end Varint

namespace IntForm

/-- Every form, in the order of their widths. -/
def all : List IntForm :=
  [.varint, .fixed1, .fixed2, .fixed4, .fixed8]

/-- The name of a form in a configuration. -/
def name : IntForm → String
  | .varint => "varint"
  | .fixed1 => "fixed1"
  | .fixed2 => "fixed2"
  | .fixed4 => "fixed4"
  | .fixed8 => "fixed8"

/-- The form that a configuration names. -/
def ofName? (s : String) : Option IntForm :=
  all.find? fun f => f.name == s

/-- The name of a form in a message. -/
def label : IntForm → String
  | .varint => "Varint"
  | .fixed1 => "Fixed1"
  | .fixed2 => "Fixed2"
  | .fixed4 => "Fixed4"
  | .fixed8 => "Fixed8"

/-- The longest that an integer of the form can be. -/
def maxWidth : IntForm → Nat
  | .varint => Varint.maxWidth
  | .fixed1 => 1
  | .fixed2 => 2
  | .fixed4 => 4
  | .fixed8 => 8

/-- The first number that the form cannot hold. -/
def capacity : IntForm → Nat
  | .varint => intBound
  | .fixed1 => 256
  | .fixed2 => 0x10000
  | .fixed4 => 0x100000000
  | .fixed8 => intBound

/-- How many bytes a number takes, or `none` if the form cannot hold it. -/
def width? (f : IntForm) (n : Nat) : Option Nat :=
  if n < f.capacity then
    some (match f with
      | .varint => Varint.width n
      | _ => f.maxWidth)
  else none

/-- The bytes of a number that the form can hold. -/
def bytes (f : IntForm) (n : Nat) : Bytes :=
  match f with
  | .varint => Varint.encode n
  | _ => Bytes.ofNatBE f.maxWidth n

/-- What the front of a byte string holds: a whole number with the count of
its bytes, bytes that start no number, or the beginning of a number only. -/
inductive Scan
  | whole (value used : Nat)
  | malformed
  | incomplete
  deriving DecidableEq, Repr

end IntForm

/-- Continue a varint over the bytes that follow. -/
def Varint.scanFrom (p : Varint.Partial) : Bytes → IntForm.Scan
  | [] => .incomplete
  | b :: bs =>
      match p.push b with
      | .more q => scanFrom q bs
      | .done value => .whole value (p.count + 1)
      | .malformed => .malformed

/-- Take a big-endian number of a fixed width off the front. -/
def IntForm.scanFixed (width : Nat) (bs : Bytes) : IntForm.Scan :=
  if bs.length < width then .incomplete
  else .whole (Bytes.toNatBE (bs.take width)) width

/-- Look for a number at the front of a byte string. -/
def IntForm.scan (f : IntForm) (bs : Bytes) : IntForm.Scan :=
  match f with
  | .varint => Varint.scanFrom .start bs
  | _ => scanFixed f.maxWidth bs

end SealedStream

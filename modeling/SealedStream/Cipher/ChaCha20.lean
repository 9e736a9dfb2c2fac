import SealedStream.Bytes

/-!
# ChaCha20

The state is a square of sixteen words.  A half round mixes the four columns
at once, so it is written on rows; between two half rounds the rows are turned
so that the diagonals become columns.

One block of keystream is the scrambled state added to the state it came from,
64 bytes.  Leaving the addition out gives the key derivation by which the
extended-nonce variant makes a fresh key from the first 16 nonce bytes.
-/

namespace SealedStream

namespace ChaCha20

/-- Four words side by side. -/
structure Row where
  w0 : UInt32
  w1 : UInt32
  w2 : UInt32
  w3 : UInt32
  deriving DecidableEq, Repr

namespace Row

/-- Wordwise sum. -/
def add (x y : Row) : Row :=
  ⟨x.w0 + y.w0, x.w1 + y.w1, x.w2 + y.w2, x.w3 + y.w3⟩

/-- Wordwise exclusive or. -/
def xor (x y : Row) : Row :=
  ⟨x.w0 ^^^ y.w0, x.w1 ^^^ y.w1, x.w2 ^^^ y.w2, x.w3 ^^^ y.w3⟩

/-- A word with its bits turned left. -/
def rotateWord (x : UInt32) (n : UInt32) : UInt32 :=
  (x <<< n) ||| (x >>> (32 - n))

/-- Every word with its bits turned left. -/
def rotate (x : Row) (n : UInt32) : Row :=
  ⟨rotateWord x.w0 n, rotateWord x.w1 n, rotateWord x.w2 n, rotateWord x.w3 n⟩

/-- The words moved one place to the left. -/
def turn (x : Row) : Row :=
  ⟨x.w1, x.w2, x.w3, x.w0⟩

/-- The bytes of the words, least significant first. -/
def bytes (x : Row) : Bytes :=
  [x.w0, x.w1, x.w2, x.w3].flatMap fun w => Bytes.ofNatLE 4 w.toNat

/-- The row whose bytes are the first sixteen given. -/
def ofBytes (bs : Bytes) : Row :=
  let word (i : Nat) : UInt32 :=
    UInt32.ofNat (Bytes.toNatLE ((bs.drop (4 * i)).take 4))
  ⟨word 0, word 1, word 2, word 3⟩

end Row

/-- The square of sixteen words. -/
structure State where
  a : Row
  b : Row
  c : Row
  d : Row
  deriving DecidableEq, Repr

namespace State

/-- Mix the four columns. -/
def mixColumns (s : State) : State :=
  let a := s.a.add s.b
  let d := (s.d.xor a).rotate 16
  let c := s.c.add d
  let b := (s.b.xor c).rotate 12
  let a := a.add b
  let d := (d.xor a).rotate 8
  let c := c.add d
  let b := (b.xor c).rotate 7
  ⟨a, b, c, d⟩

/-- Bring the diagonals into the columns. -/
def toDiagonals (s : State) : State :=
  ⟨s.a, s.b.turn, s.c.turn.turn, s.d.turn.turn.turn⟩

/-- Bring the columns back into the diagonals. -/
def ofDiagonals (s : State) : State :=
  ⟨s.a, s.b.turn.turn.turn, s.c.turn.turn, s.d.turn⟩

/-- Two rounds: mix the columns, then the diagonals. -/
def doubleRound (s : State) : State :=
  s.mixColumns.toDiagonals.mixColumns.ofDiagonals

/-- A number of double rounds. -/
def scramble : (k : Nat) → State → State
  | 0, s => s
  | k + 1, s => scramble k s.doubleRound

/-- Wordwise sum. -/
def add (s t : State) : State :=
  ⟨s.a.add t.a, s.b.add t.b, s.c.add t.c, s.d.add t.d⟩

/-- The 64 bytes of the state, row by row. -/
def bytes (s : State) : Bytes :=
  s.a.bytes ++ s.b.bytes ++ s.c.bytes ++ s.d.bytes

end State

/-- The words that every state begins with. -/
def constants : Row :=
  ⟨0x61707865, 0x3320646e, 0x79622d32, 0x6b206574⟩

/-- The state for a key of 32 bytes and a last row. -/
def initial (key : Bytes) (last : Row) : State :=
  ⟨constants, .ofBytes key, .ofBytes (key.drop 16), last⟩

/-- One block of keystream after so many double rounds. -/
def block (doubleRounds : Nat) (s : State) : Bytes :=
  ((s.scramble doubleRounds).add s).bytes

/-- The last row for a block number and a nonce of twelve bytes. -/
def lastRow (index : Nat) (nonce : Bytes) : Row :=
  .ofBytes (Bytes.ofNatLE 4 index ++ nonce)

/-- `n` blocks of keystream, the first one numbered `start`. -/
def keystream (key nonce : Bytes) (start n : Nat) : Bytes :=
  (List.range n).flatMap fun i =>
    block 10 (initial key (lastRow (start + i) nonce))

/-- The key that a key of 32 bytes and a nonce of 16 bytes make together. -/
def subkey (key nonce : Bytes) : Bytes :=
  let s := (initial key (.ofBytes nonce)).scramble 10
  s.a.bytes ++ s.d.bytes

end ChaCha20

end SealedStream

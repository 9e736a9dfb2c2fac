import SealedStream.Bytes

/-!
# BLAKE2b

A hash with a digest of one to sixty-four bytes.  The compression function
works on a square of sixteen words in which four columns are mixed at a time,
then the four diagonals; it is written on rows.  Twelve rounds take the words
of a message block in twelve orders.
-/

namespace SealedStream

namespace Blake2b

/-- Four words side by side. -/
structure Row where
  w0 : UInt64
  w1 : UInt64
  w2 : UInt64
  w3 : UInt64
  deriving DecidableEq, Repr, Inhabited

namespace Row

/-- Wordwise sum. -/
def add (x y : Row) : Row :=
  ⟨x.w0 + y.w0, x.w1 + y.w1, x.w2 + y.w2, x.w3 + y.w3⟩

/-- Wordwise exclusive or. -/
def xor (x y : Row) : Row :=
  ⟨x.w0 ^^^ y.w0, x.w1 ^^^ y.w1, x.w2 ^^^ y.w2, x.w3 ^^^ y.w3⟩

/-- A word with its bits turned right. -/
def rotateWord (x : UInt64) (n : UInt64) : UInt64 :=
  (x >>> n) ||| (x <<< (64 - n))

/-- Every word with its bits turned right. -/
def rotate (x : Row) (n : UInt64) : Row :=
  ⟨rotateWord x.w0 n, rotateWord x.w1 n, rotateWord x.w2 n, rotateWord x.w3 n⟩

/-- The words moved one place to the left. -/
def turn (x : Row) : Row :=
  ⟨x.w1, x.w2, x.w3, x.w0⟩

/-- The bytes of the words, least significant first. -/
def bytes (x : Row) : Bytes :=
  [x.w0, x.w1, x.w2, x.w3].flatMap fun w => Bytes.ofNatLE 8 w.toNat

end Row

/-- The square of sixteen words. -/
structure Square where
  a : Row
  b : Row
  c : Row
  d : Row
  deriving DecidableEq, Repr, Inhabited

namespace Square

/-- Mix the four columns, adding `x` in the first half and `y` in the second. -/
def mixColumns (s : Square) (x y : Row) : Square :=
  let a := (s.a.add s.b).add x
  let d := (s.d.xor a).rotate 32
  let c := s.c.add d
  let b := (s.b.xor c).rotate 24
  let a := (a.add b).add y
  let d := (d.xor a).rotate 16
  let c := c.add d
  let b := (b.xor c).rotate 63
  ⟨a, b, c, d⟩

/-- Bring the diagonals into the columns. -/
def toDiagonals (s : Square) : Square :=
  ⟨s.a, s.b.turn, s.c.turn.turn, s.d.turn.turn.turn⟩

/-- Bring the columns back into the diagonals. -/
def ofDiagonals (s : Square) : Square :=
  ⟨s.a, s.b.turn.turn.turn, s.c.turn.turn, s.d.turn⟩

end Square

/-- The orders in which the rounds take the words of a block. -/
def orders : List (Array Nat) :=
  [#[0, 1, 2, 3, 4, 5, 6, 7, 8, 9, 10, 11, 12, 13, 14, 15],
   #[14, 10, 4, 8, 9, 15, 13, 6, 1, 12, 0, 2, 11, 7, 5, 3],
   #[11, 8, 12, 0, 5, 2, 15, 13, 10, 14, 3, 6, 7, 1, 9, 4],
   #[7, 9, 3, 1, 13, 12, 11, 14, 2, 6, 5, 10, 4, 0, 15, 8],
   #[9, 0, 5, 7, 2, 4, 10, 15, 14, 1, 11, 12, 6, 8, 3, 13],
   #[2, 12, 6, 10, 0, 11, 8, 3, 4, 13, 7, 5, 15, 14, 1, 9],
   #[12, 5, 1, 15, 14, 13, 4, 10, 0, 7, 6, 3, 9, 2, 8, 11],
   #[13, 11, 7, 14, 12, 1, 3, 9, 5, 0, 15, 4, 8, 6, 2, 10],
   #[6, 15, 14, 9, 11, 3, 0, 8, 12, 2, 13, 7, 1, 4, 10, 5],
   #[10, 2, 8, 4, 7, 6, 1, 5, 15, 11, 9, 14, 3, 12, 13, 0],
   #[0, 1, 2, 3, 4, 5, 6, 7, 8, 9, 10, 11, 12, 13, 14, 15],
   #[14, 10, 4, 8, 9, 15, 13, 6, 1, 12, 0, 2, 11, 7, 5, 3]]

/-- The first half of the initial values. -/
def initialLow : Row :=
  ⟨0x6a09e667f3bcc908, 0xbb67ae8584caa73b, 0x3c6ef372fe94f82b,
   0xa54ff53a5f1d36f1⟩

/-- The second half of the initial values. -/
def initialHigh : Row :=
  ⟨0x510e527fade682d1, 0x9b05688c2b3e6c1f, 0x1f83d9abfb41bd6b,
   0x5be0cd19137e2179⟩

/-- The eight words that the hash carries from block to block. -/
structure Chain where
  low : Row
  high : Row
  deriving DecidableEq, Repr

/-- The words of a block of 128 bytes; missing bytes are zero. -/
def blockWords (block : Bytes) : Array UInt64 :=
  ((List.range 16).map fun i =>
    UInt64.ofNat (Bytes.toNatLE ((block.drop (8 * i)).take 8))).toArray

/-- One round over the words of a block, in a given order. -/
def round (words : Array UInt64) (s : Square) (order : Array Nat) : Square :=
  let word (i : Nat) : UInt64 := words.getD (order.getD i 0) 0
  let s := s.mixColumns ⟨word 0, word 2, word 4, word 6⟩
    ⟨word 1, word 3, word 5, word 7⟩
  (s.toDiagonals.mixColumns ⟨word 8, word 10, word 12, word 14⟩
    ⟨word 9, word 11, word 13, word 15⟩).ofDiagonals

/-- Take in a block; `count` is the number of bytes hashed with it. -/
def compress (h : Chain) (block : Bytes) (count : Nat) (isLast : Bool) : Chain :=
  let words := blockWords block
  let marks : Row :=
    ⟨UInt64.ofNat count, UInt64.ofNat (count >>> 64),
     if isLast then 0xffffffffffffffff else 0, 0⟩
  let start : Square := ⟨h.low, h.high, initialLow, initialHigh.xor marks⟩
  let s := orders.foldl (round words) start
  ⟨(h.low.xor s.a).xor s.c, (h.high.xor s.b).xor s.d⟩

/-- Take in a list of blocks, marking the last one. -/
def compressAll : Chain → (count : Nat) → List Bytes → Chain
  | h, _, [] => h
  | h, count, [block] => compress h block (count + block.length) true
  | h, count, block :: rest =>
      compressAll (compress h block (count + block.length) false)
        (count + block.length) rest

/-- The digest of `size` bytes of a message, without a key. -/
def hash (size : Nat) (message : Bytes) : Bytes :=
  let parameters : Row := ⟨UInt64.ofNat (0x01010000 + size), 0, 0, 0⟩
  let start : Chain := ⟨initialLow.xor parameters, initialHigh⟩
  let blocks := if message.isEmpty then [[]] else Bytes.pieces 128 message
  let h := compressAll start 0 blocks
  (h.low.bytes ++ h.high.bytes).take size

end Blake2b

end SealedStream

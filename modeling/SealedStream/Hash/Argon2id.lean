import SealedStream.Hash.Blake2b

/-!
# Argon2id

A password hash that fills a memory of blocks of 1024 bytes.  The memory has
one row of blocks for each lane, and each row has four segments.  Every block
is the compression of the block before it and of one that was written earlier;
which one is decided by the data, except in the first half of the first pass,
where it is decided by a counter.

A block is an eight by eight square of registers of two words each; the
permutation of BLAKE2b, with a product added to each sum, mixes its rows and
then its columns.
-/

namespace SealedStream

namespace Argon2id

/-- What the memory costs: its size in kibibytes, the number of passes over it
and the number of lanes. -/
structure Cost where
  memory : UInt32
  passes : UInt32
  lanes : UInt32
  deriving DecidableEq, Repr

/-- Why a cost is refused, if it is.  Eight times the number of lanes is taken
as a 32-bit number. -/
def Cost.problem? (c : Cost) : Option String :=
  if c.memory < 8 then some "memory cost is too small"
  else if c.memory < c.lanes * 8 then some "memory cost is too small"
  else if c.passes < 1 then some "time cost is too small"
  else if c.lanes < 1 then some "not enough threads"
  else if 0xffffff < c.lanes then some "too many threads"
  else none

/-! ## Blocks -/

/-- Two words side by side. -/
structure Register where
  lo : UInt64
  hi : UInt64
  deriving DecidableEq, Repr, Inhabited

/-- Wordwise exclusive or. -/
def Register.xor (x y : Register) : Register :=
  ⟨x.lo ^^^ y.lo, x.hi ^^^ y.hi⟩

/-- Sixty-four registers, row by row. -/
abbrev Block := Array Register

namespace Block

/-- The block of zeros. -/
def zero : Block :=
  Array.replicate 64 ⟨0, 0⟩

/-- Registerwise exclusive or. -/
def xor (x y : Block) : Block :=
  Array.zipWith Register.xor x y

/-- The word at an index below 128. -/
def word (x : Block) (i : Nat) : UInt64 :=
  let r := x.getD (i / 2) default
  if i % 2 = 0 then r.lo else r.hi

/-- The block of 1024 bytes, least significant bytes first. -/
def ofBytes (bs : Bytes) : Block :=
  let word (b : Bytes) : UInt64 := UInt64.ofNat (Bytes.toNatLE b)
  ((Bytes.pieces 16 bs).map fun p => ⟨word (p.take 8), word (p.drop 8)⟩).toArray

/-- The 1024 bytes of a block. -/
def bytes (x : Block) : Bytes :=
  x.toList.flatMap fun r =>
    Bytes.ofNatLE 8 r.lo.toNat ++ Bytes.ofNatLE 8 r.hi.toNat

end Block

open Blake2b (Row Square)

/-- The sum of two words and twice the product of their lower halves. -/
def mulAddWord (x y : UInt64) : UInt64 :=
  x + y + 2 * ((x &&& 0xffffffff) * (y &&& 0xffffffff))

/-- `mulAddWord` on rows. -/
def mulAdd (x y : Row) : Row :=
  ⟨mulAddWord x.w0 y.w0, mulAddWord x.w1 y.w1, mulAddWord x.w2 y.w2,
   mulAddWord x.w3 y.w3⟩

/-- Mix the four columns of a square. -/
def mixColumns (s : Square) : Square :=
  let a := mulAdd s.a s.b
  let d := (s.d.xor a).rotate 32
  let c := mulAdd s.c d
  let b := (s.b.xor c).rotate 24
  let a := mulAdd a b
  let d := (d.xor a).rotate 16
  let c := mulAdd c d
  let b := (b.xor c).rotate 63
  ⟨a, b, c, d⟩

/-- Mix the columns of a square, then its diagonals. -/
def mixSquare (s : Square) : Square :=
  (mixColumns (mixColumns s).toDiagonals).ofDiagonals

/-- Mix the eight registers at the indices `first`, `first + step`, ... -/
def mixRegisters (x : Block) (first step : Nat) : Block :=
  let register (i : Nat) : Register := x.getD (first + i * step) default
  let row (i : Nat) : Row :=
    let p := register (2 * i)
    let q := register (2 * i + 1)
    ⟨p.lo, p.hi, q.lo, q.hi⟩
  let s := mixSquare ⟨row 0, row 1, row 2, row 3⟩
  let put (y : Block) (i : Nat) (r : Row) : Block :=
    (y.setIfInBounds (first + 2 * i * step) ⟨r.w0, r.w1⟩).setIfInBounds
      (first + (2 * i + 1) * step) ⟨r.w2, r.w3⟩
  put (put (put (put x 0 s.a) 1 s.b) 2 s.c) 3 s.d

/-- The compression of two blocks. -/
def compress (x y : Block) : Block :=
  let r := x.xor y
  let rows := (List.range 8).foldl (fun z i => mixRegisters z (8 * i) 1) r
  let columns := (List.range 8).foldl (fun z i => mixRegisters z i 8) rows
  columns.xor r

/-! ## Hashing to any length -/

/-- A 32-bit number in four bytes. -/
def le32 (n : Nat) : Bytes :=
  Bytes.ofNatLE 4 n

/-- The first halves of `k` digests, each the digest of the one before, and
then a digest of `rest` bytes. -/
def hashChain : (k : Nat) → Bytes → (rest : Nat) → Bytes
  | 0, v, rest => Blake2b.hash rest v
  | k + 1, v, rest =>
      let v' := Blake2b.hash 64 v
      v'.take 32 ++ hashChain k v' rest

/-- The digest of `size` bytes, for any size. -/
def longHash (size : Nat) (message : Bytes) : Bytes :=
  let input := le32 size ++ message
  if size ≤ 64 then Blake2b.hash size input
  else
    let k := (size + 31) / 32 - 2
    hashChain k input (size - 32 * k)

/-! ## Filling the memory -/

/-- The shape of the memory: how many lanes, and how many blocks in each of
the four segments of a lane. -/
structure Shape where
  lanes : Nat
  segment : Nat
  deriving DecidableEq, Repr

namespace Shape

/-- The shape that a cost buys. -/
def ofCost (c : Cost) : Shape :=
  ⟨c.lanes.toNat, c.memory.toNat / (4 * c.lanes.toNat)⟩

/-- Blocks of a lane. -/
def lane (s : Shape) : Nat :=
  4 * s.segment

/-- Blocks of the whole memory. -/
def blocks (s : Shape) : Nat :=
  s.lanes * s.lane

end Shape

/-- The memory, lane after lane. -/
abbrev Memory := Array Block

/-- Where a segment lies: in which pass, lane and quarter. -/
structure Place where
  pass : Nat
  lane : Nat
  slice : Nat
  deriving DecidableEq, Repr

/-- The block that holds the next 128 addresses of a segment. -/
def addressBlock (shape : Shape) (passes : Nat) (p : Place) (index : Nat) :
    Block :=
  let words : List Nat :=
    [p.pass, p.lane, p.slice, shape.blocks, passes, 2, index + 1]
  let input := Block.ofBytes
    (words.flatMap (Bytes.ofNatLE 8) ++ Bytes.zeros (1024 - 8 * words.length))
  compress .zero (compress .zero input)

/-- The number of blocks that the block at `i` of a segment may refer to. -/
def candidates (shape : Shape) (p : Place) (sameLane : Bool) (i : Nat) : Nat :=
  let finished :=
    if p.pass = 0 then p.slice * shape.segment
    else shape.lane - shape.segment
  if sameLane then finished + i - 1
  else if i = 0 then finished - 1 else finished

/-- The block that a pseudo-random word refers to: low numbers are unlikely,
so recent blocks are preferred. -/
def referred (shape : Shape) (p : Place) (random : UInt64) (i : Nat) : Nat :=
  let half := 0x100000000
  let low := random.toNat % half
  let lane :=
    if p.pass = 0 ∧ p.slice = 0 then p.lane
    else random.toNat / half % shape.lanes
  let count := candidates shape p (lane = p.lane) i
  let back := count * (low * low / half) / half
  let first :=
    if p.pass = 0 ∨ p.slice = 3 then 0 else (p.slice + 1) * shape.segment
  lane * shape.lane + (first + (count - 1 - back)) % shape.lane

/-- Fill the blocks of a segment from the index `i` on, `k` of them; `addresses`
is the address block in use, if addresses do not depend on the data. -/
def fillSegment (shape : Shape) (passes : Nat) (p : Place) :
    (k i : Nat) → (addresses : Option Block) → Memory → Memory
  | 0, _, _, memory => memory
  | k + 1, i, addresses, memory =>
      let column := p.slice * shape.segment + i
      let base := p.lane * shape.lane
      let previous := memory.getD
        (base + (column + shape.lane - 1) % shape.lane) .zero
      let addresses' := addresses.map fun a =>
        if i % 128 = 0 then addressBlock shape passes p (i / 128) else a
      let random :=
        match addresses' with
        | some a => a.word (i % 128)
        | none => previous.word 0
      let block := compress previous
        (memory.getD (referred shape p random i) .zero)
      let here := base + column
      let block' :=
        if p.pass = 0 then block else block.xor (memory.getD here .zero)
      fillSegment shape passes p k (i + 1) addresses'
        (memory.setIfInBounds here block')

/-- Fill one segment.  The first two blocks of a lane are there from the
start, so the block at index two may need an address block of its own. -/
def fillPlace (shape : Shape) (passes : Nat) (memory : Memory) (p : Place) :
    Memory :=
  let start := if p.pass = 0 ∧ p.slice = 0 then 2 else 0
  let addresses :=
    if p.pass = 0 ∧ p.slice < 2 then some (addressBlock shape passes p 0)
    else none
  fillSegment shape passes p (shape.segment - start) start addresses memory

/-- Every segment in the order in which they are filled. -/
def places (shape : Shape) (passes : Nat) : List Place :=
  (List.range passes).flatMap fun pass =>
    (List.range 4).flatMap fun slice =>
      (List.range shape.lanes).map fun lane => ⟨pass, lane, slice⟩

/-- The digest of everything that goes in. -/
def seed (c : Cost) (size : Nat) (password salt : Bytes) : Bytes :=
  Blake2b.hash 64
    (le32 c.lanes.toNat ++ le32 size ++ le32 c.memory.toNat ++
      le32 c.passes.toNat ++ le32 0x13 ++ le32 2 ++
      le32 password.length ++ password ++ le32 salt.length ++ salt ++
      le32 0 ++ le32 0)

/-- The memory with the first two blocks of each lane. -/
def initialMemory (shape : Shape) (h : Bytes) : Memory :=
  (List.range shape.lanes).foldl
    (fun memory lane =>
      let block (i : Nat) : Block :=
        .ofBytes (longHash 1024 (h ++ le32 i ++ le32 lane))
      (memory.setIfInBounds (lane * shape.lane) (block 0)).setIfInBounds
        (lane * shape.lane + 1) (block 1))
    (Array.replicate shape.blocks .zero)

/-- The sum of the last blocks of all lanes. -/
def lastBlocks (shape : Shape) (memory : Memory) : Block :=
  (List.range shape.lanes).foldl
    (fun sum lane => sum.xor (memory.getD ((lane + 1) * shape.lane - 1) .zero))
    .zero

/-- The hash of `size` bytes of a password with a salt. -/
def hash (c : Cost) (size : Nat) (password salt : Bytes) : Bytes :=
  let shape := Shape.ofCost c
  let start := initialMemory shape (seed c size password salt)
  let filled := (places shape c.passes.toNat).foldl
    (fillPlace shape c.passes.toNat) start
  longHash size (lastBlocks shape filled).bytes

end Argon2id

end SealedStream

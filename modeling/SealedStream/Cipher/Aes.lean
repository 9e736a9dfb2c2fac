import SealedStream.Bytes

/-!
# The AES block cipher

A block is four columns of four bytes.  A round replaces every byte by its
image under the substitution, takes the bytes of a new column from the four
old columns in turn, mixes each column by a matrix over the field of 256
elements, and adds a round key; the last round leaves the mixing out.

The substitution is computed from its definition: the inverse in the field,
followed by an affine map of the bits.
-/

namespace SealedStream

namespace Aes

/-- The product with the element whose only set bit is bit one. -/
def double (x : UInt8) : UInt8 :=
  if x < 128 then x <<< 1 else (x <<< 1) ^^^ 0x1b

/-- The product in the field of 256 elements, over the lowest `k` bits of the
second factor. -/
def mulBits : (k : Nat) → UInt8 → UInt8 → UInt8
  | 0, _, _ => 0
  | k + 1, x, y =>
      (if y &&& 1 = 1 then x else 0) ^^^ mulBits k (double x) (y >>> 1)

/-- The product in the field of 256 elements. -/
def mul (x y : UInt8) : UInt8 :=
  mulBits 8 x y

/-- The inverse in the field, which is the power 254; zero for zero. -/
def inverse (x : UInt8) : UInt8 :=
  let x2 := mul x x
  let x4 := mul x2 x2
  let x8 := mul x4 x4
  let x16 := mul x8 x8
  let x32 := mul x16 x16
  let x64 := mul x32 x32
  let x128 := mul x64 x64
  mul x2 (mul x4 (mul x8 (mul x16 (mul x32 (mul x64 x128)))))

/-- A byte with its bits turned left. -/
def rotateByte (x : UInt8) (n : UInt8) : UInt8 :=
  (x <<< n) ||| (x >>> (8 - n))

/-- The image of a byte under the substitution. -/
def substitute (x : UInt8) : UInt8 :=
  let y := inverse x
  y ^^^ rotateByte y 1 ^^^ rotateByte y 2 ^^^ rotateByte y 3 ^^^
    rotateByte y 4 ^^^ 0x63

/-- The substitution as a table. -/
def substitutionTable : Array UInt8 :=
  ((List.range 256).map fun i => substitute (UInt8.ofNat i)).toArray

/-- The image of a byte, looked up. -/
def sub (x : UInt8) : UInt8 :=
  substitutionTable.getD x.toNat 0

/-- Four bytes on top of one another. -/
structure Column where
  b0 : UInt8
  b1 : UInt8
  b2 : UInt8
  b3 : UInt8
  deriving DecidableEq, Repr, Inhabited

namespace Column

/-- Bytewise exclusive or. -/
def xor (x y : Column) : Column :=
  ⟨x.b0 ^^^ y.b0, x.b1 ^^^ y.b1, x.b2 ^^^ y.b2, x.b3 ^^^ y.b3⟩

/-- The product with the mixing matrix, whose rows are the turns of 2 3 1 1. -/
def mix (x : Column) : Column :=
  let all := x.b0 ^^^ x.b1 ^^^ x.b2 ^^^ x.b3
  ⟨x.b0 ^^^ all ^^^ double (x.b0 ^^^ x.b1),
   x.b1 ^^^ all ^^^ double (x.b1 ^^^ x.b2),
   x.b2 ^^^ all ^^^ double (x.b2 ^^^ x.b3),
   x.b3 ^^^ all ^^^ double (x.b3 ^^^ x.b0)⟩

/-- The column of the first four bytes given. -/
def ofBytes (bs : Bytes) : Column :=
  ⟨bs.getD 0 0, bs.getD 1 0, bs.getD 2 0, bs.getD 3 0⟩

/-- The bytes from top to bottom. -/
def bytes (x : Column) : Bytes :=
  [x.b0, x.b1, x.b2, x.b3]

end Column

/-- A block: four columns. -/
structure Block where
  c0 : Column
  c1 : Column
  c2 : Column
  c3 : Column
  deriving DecidableEq, Repr, Inhabited

namespace Block

/-- Bytewise exclusive or. -/
def xor (x y : Block) : Block :=
  ⟨x.c0.xor y.c0, x.c1.xor y.c1, x.c2.xor y.c2, x.c3.xor y.c3⟩

/-- The block of the first sixteen bytes given. -/
def ofBytes (bs : Bytes) : Block :=
  ⟨.ofBytes bs, .ofBytes (bs.drop 4), .ofBytes (bs.drop 8),
   .ofBytes (bs.drop 12)⟩

/-- The sixteen bytes, column by column. -/
def bytes (x : Block) : Bytes :=
  x.c0.bytes ++ x.c1.bytes ++ x.c2.bytes ++ x.c3.bytes

/-- Substitute every byte and take row `i` of each column from the column `i`
places further on. -/
def shuffle (x : Block) : Block :=
  ⟨⟨sub x.c0.b0, sub x.c1.b1, sub x.c2.b2, sub x.c3.b3⟩,
   ⟨sub x.c1.b0, sub x.c2.b1, sub x.c3.b2, sub x.c0.b3⟩,
   ⟨sub x.c2.b0, sub x.c3.b1, sub x.c0.b2, sub x.c1.b3⟩,
   ⟨sub x.c3.b0, sub x.c0.b1, sub x.c1.b2, sub x.c2.b3⟩⟩

/-- Mix every column. -/
def mix (x : Block) : Block :=
  ⟨x.c0.mix, x.c1.mix, x.c2.mix, x.c3.mix⟩

end Block

/-- The keys of the rounds: one before the first round, one for each round but
the last, and one for the last. -/
structure Schedule where
  first : Block
  middle : List Block
  last : Block
  deriving DecidableEq, Repr

/-- The next column of the key schedule: the column before it, transformed
where a new key length begins, added to the column one key length back. -/
def nextColumn (keyColumns : Nat) (columns : Array Column) (constant : UInt8) :
    Column :=
  let i := columns.size
  let c := columns.getD (i - 1) default
  let turned :=
    if i % keyColumns = 0 then
      ⟨sub c.b1 ^^^ constant, sub c.b2, sub c.b3, sub c.b0⟩
    else if 6 < keyColumns ∧ i % keyColumns = 4 then
      ⟨sub c.b0, sub c.b1, sub c.b2, sub c.b3⟩
    else c
  (columns.getD (i - keyColumns) default).xor turned

/-- Add `k` columns to the key schedule; the constant is doubled each time it
has been used. -/
def expand (keyColumns : Nat) : (k : Nat) → UInt8 → Array Column → Array Column
  | 0, _, columns => columns
  | k + 1, constant, columns =>
      let constant' :=
        if columns.size % keyColumns = 0 then double constant else constant
      expand keyColumns k constant'
        (columns.push (nextColumn keyColumns columns constant))

/-- The round key of a given number. -/
def roundKey (columns : Array Column) (i : Nat) : Block :=
  ⟨columns.getD (4 * i) default, columns.getD (4 * i + 1) default,
   columns.getD (4 * i + 2) default, columns.getD (4 * i + 3) default⟩

/-- The schedule of a key of 16 or 32 bytes, for 10 or 14 rounds. -/
def Schedule.ofKey (key : Bytes) : Schedule :=
  let keyColumns := key.length / 4
  let rounds := keyColumns + 6
  let start := ((Bytes.pieces 4 key).map Column.ofBytes).toArray
  let columns := expand keyColumns (4 * (rounds + 1) - keyColumns) 1 start
  { first := roundKey columns 0
    middle := (List.range (rounds - 1)).map fun i => roundKey columns (i + 1)
    last := roundKey columns rounds }

/-- Encrypt one block. -/
def encrypt (keys : Schedule) (x : Block) : Block :=
  let mixed := keys.middle.foldl (fun y k => y.shuffle.mix.xor k)
    (x.xor keys.first)
  mixed.shuffle.xor keys.last

end Aes

end SealedStream

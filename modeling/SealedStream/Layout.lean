import SealedStream.IntForm.Codec
import SealedStream.Suite

/-!
# Stream layouts

A layout says how plaintext is cut into chunks and how sealed chunks are
framed.  Writer and reader have to agree on it.  There are three kinds of
stream: length-framed with chunk counters, length-framed without them, and
fixed-size chunks with neither.

`Layout.check` refuses the combinations in which no terminator could be
written or no payload would fit into a chunk.  It says nothing of very large
chunks: a size is kept in a machine word, and half of what a word can hold is
already more than can be allocated.
-/

namespace SealedStream

/-- How a stream is cut and framed, and how its chunks come by nonces. -/
structure Layout where
  nonceMode : NonceMode
  /-- Every chunk is preceded by its sealed length. -/
  lengthPrefix : Bool
  lengthForm : IntForm
  /-- Every chunk begins with its number, and the chunk zero ends the stream. -/
  chunkCounter : Bool
  counterForm : IntForm
  /-- Plaintext bytes of a full chunk, its counter included; with zero, every
  write makes one chunk. -/
  bufferSize : Nat
  /-- The longest chunk plaintext that a reader accepts; zero for no limit. -/
  maxChunkSize : Nat
  deriving DecidableEq, Repr

namespace Layout

/-- The layout used where nothing else is asked for. -/
def standard : Layout where
  nonceMode := .random
  lengthPrefix := true
  lengthForm := .varint
  chunkCounter := true
  counterForm := .varint
  bufferSize := 1048576
  maxChunkSize := 1048576

/-- The form of the length before each chunk, if there is one. -/
def length? (l : Layout) : Option IntForm :=
  if l.lengthPrefix then some l.lengthForm else none

/-- The form of the counter in each chunk, if there is one. -/
def counter? (l : Layout) : Option IntForm :=
  if l.chunkCounter then some l.counterForm else none

/-- The same layout with one chunk for every write. -/
def unbuffered (l : Layout) : Layout :=
  { l with bufferSize := 0 }

/-- The same layout with another chunk size. -/
def withBufferSize (l : Layout) (n : Nat) : Layout :=
  { l with bufferSize := n }

/-- The same layout with another nonce mode. -/
def withNonceMode (l : Layout) (m : NonceMode) : Layout :=
  { l with nonceMode := m }

/-- Refuse a layout in which a stream cannot be written. -/
def check (l : Layout) : Except Failure Unit :=
  if l.chunkCounter ∧ ¬ l.lengthPrefix then
    .error (.invalidConfig <|
      "chunk_counter requires length_prefix: " ++
        "a fixed-size stream cannot frame its terminator")
  else if ¬ l.lengthPrefix ∧ l.bufferSize = 0 then
    .error (.invalidConfig "fixed-size chunks require a non-zero buffer_size")
  else if l.chunkCounter ∧ l.bufferSize ≠ 0 ∧
      l.bufferSize ≤ l.counterForm.maxWidth then
    .error (.invalidConfig <|
      s!"buffer_size {l.bufferSize} leaves no room for payload " ++
        s!"after a {l.counterForm.maxWidth}-byte counter")
  else .ok ()

/-- The longest sealed chunk that a reader accepts when sealing adds
`overhead` bytes.  A limit past the largest integer is that integer. -/
def chunkLimit? (l : Layout) (overhead : Nat) : Option Nat :=
  if l.maxChunkSize = 0 then none
  else some (min (l.maxChunkSize + overhead) (intBound - 1))

/-- No buffer can be had of this size or a larger one. -/
def allocationBound : Nat := 0x8000000000000000

/-- The size of a full sealed chunk when sealing adds `overhead` bytes, as it
stands in a machine word: what does not fit the word is lost from the sum. -/
def fullSize (l : Layout) (overhead : Nat) : Nat :=
  (l.bufferSize + overhead) % intBound

/-- A full sealed chunk can be held in memory. -/
def Allocatable (l : Layout) (overhead : Nat) : Prop :=
  l.fullSize overhead < allocationBound

instance (l : Layout) (overhead : Nat) : Decidable (l.Allocatable overhead) :=
  inferInstanceAs (Decidable (_ < _))

/-- A sum that fits the word is what stands in it. -/
theorem fullSize_eq {l : Layout} {overhead : Nat}
    (h : l.bufferSize + overhead < intBound) :
    l.fullSize overhead = l.bufferSize + overhead :=
  Nat.mod_eq_of_lt h

theorem allocationBound_le : allocationBound ≤ intBound := by decide

theorem allocatable_of_lt {l : Layout} {overhead : Nat}
    (h : l.bufferSize + overhead < allocationBound) : l.Allocatable overhead := by
  rw [Allocatable, fullSize_eq (Nat.lt_of_lt_of_le h allocationBound_le)]
  exact h

end Layout

end SealedStream

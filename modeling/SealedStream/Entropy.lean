import SealedStream.Cipher.ChaCha20
import SealedStream.Failure

/-!
# Sources of random bytes

An `Entropy` answers requests for so many bytes and may fail; an answer always
has the length asked for.  `seeded` is a generator that expands a seed of 32
bytes with ChaCha12.  The other two are predictable and serve to fix nonces in
advance: an arithmetic progression of words, and a tape that runs out.
-/

namespace SealedStream

/-- A source of random bytes, with states in `ρ`. -/
structure Entropy (ρ : Type) where
  draw : ρ → Nat → Except Failure Bytes × ρ
  length_draw : ∀ {s s' : ρ} {n : Nat} {bs : Bytes},
    draw s n = (.ok bs, s') → bs.length = n

namespace Entropy

/-- The first `n` bytes of an endless supply, given enough of it; zeros stand
for bytes that are missing. -/
def exactly (n : Nat) (bs : Bytes) : Bytes :=
  bs.take n ++ Bytes.zeros (n - bs.length)

theorem length_exactly (n : Nat) (bs : Bytes) : (exactly n bs).length = n := by
  simp [exactly, Bytes.zeros]
  omega

/-! ## The seeded generator -/

/-- A generator: its seed and the number of words handed out. -/
structure Seeded where
  seed : Bytes
  words : Nat
  deriving DecidableEq, Repr

/-- Words of one block. -/
def blockWords : Nat := 16

/-- A block of the generator; the block number takes the first two words of
the last row. -/
def Seeded.block (g : Seeded) (index : Nat) : Bytes :=
  ChaCha20.block 6
    (ChaCha20.initial g.seed (.ofBytes (Bytes.ofNatLE 8 index ++ Bytes.zeros 8)))

/-- The bytes from a word on, at least `n` of them. -/
def Seeded.bytesFrom (g : Seeded) (n : Nat) : Bytes :=
  let first := g.words / blockWords
  let skipped := 4 * (g.words % blockWords)
  let blocks := (skipped + n + 63) / 64
  ((List.range blocks).flatMap fun i => g.block (first + i)).drop skipped

/-- Expand a seed.  Every request begins with a fresh word. -/
def seeded : Entropy Seeded where
  draw g n :=
    (.ok (exactly n (g.bytesFrom n)), { g with words := g.words + (n + 3) / 4 })
  length_draw h := by
    simp only [Prod.mk.injEq, Except.ok.injEq] at h
    rw [← h.1, length_exactly]

/-! ## Predictable sources -/

/-- Words of eight bytes in arithmetic progression. -/
structure Progression where
  value : UInt64
  increment : UInt64
  deriving DecidableEq, Repr

/-- The next `k` words. -/
def Progression.next : (k : Nat) → Progression → Bytes × Progression
  | 0, p => ([], p)
  | k + 1, p =>
      let (rest, p') := next k { p with value := p.value + p.increment }
      (Bytes.ofNatLE 8 p.value.toNat ++ rest, p')

/-- Hand out the words of a progression; every request begins with a fresh
word. -/
def progression : Entropy Progression where
  draw p n :=
    let (bs, p') := p.next ((n + 7) / 8)
    (.ok (exactly n bs), p')
  length_draw h := by
    simp only [Prod.mk.injEq, Except.ok.injEq] at h
    rw [← h.1, length_exactly]

/-- Hand out a byte string from the front.  A request for more than is left
fails and takes nothing. -/
def tape : Entropy Bytes where
  draw bs n :=
    if n ≤ bs.length then (.ok (bs.take n), bs.drop n)
    else
      (.error (.random s!"tape exhausted: {bs.length} left, {n} wanted"), bs)
  length_draw := by
    intro s s' n bs h
    split at h
    · simp only [Prod.mk.injEq, Except.ok.injEq] at h
      rw [← h.1, List.length_take]
      omega
    · simp at h

end Entropy

end SealedStream

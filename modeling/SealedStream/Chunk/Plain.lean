import SealedStream.Chunk

/-!
# Codecs without cryptography

These codecs show the framing of a stream bare: chunks as they are, chunks
with a fixed tag at the end, chunks under a one-byte mask, and a codec that
gives out after a number of calls.
-/

namespace SealedStream

namespace Chunk

/-- Chunks are sealed as they are. -/
def blankSealer : Sealer Unit where
  overhead := 0
  sealChunk s text := (.ok text, s)

/-- Chunks are opened as they are. -/
def blankOpener : Opener Unit where
  overhead := 0
  openChunk s chunk := (.ok chunk, s)

/-- Chunks get a fixed tag at their end. -/
def tagSealer (tag : Bytes) (overhead : Nat) : Sealer Unit where
  overhead := overhead
  sealChunk s text := (.ok (text ++ tag), s)

/-- The tag has to stand at the end of a chunk and is taken off. -/
def tagOpener (tag : Bytes) (overhead : Nat) : Opener Unit where
  overhead := overhead
  openChunk s chunk :=
    let n := chunk.length - tag.length
    if tag.length ≤ chunk.length ∧ chunk.drop n = tag then (.ok (chunk.take n), s)
    else (.error .authenticationFailed, s)

/-- Every byte is masked by the same byte. -/
def mask (key : UInt8) (bs : Bytes) : Bytes :=
  bs.map (· ^^^ key)

/-- Chunks are masked. -/
def maskSealer (key : UInt8) : Sealer Unit where
  overhead := 0
  sealChunk s text := (.ok (mask key text), s)

/-- Chunks are unmasked. -/
def maskOpener (key : UInt8) : Opener Unit where
  overhead := 0
  openChunk s chunk := (.ok (mask key chunk), s)

/-- Chunks pass as they are while the state counts down to zero; from then on
every call fails. -/
def failingSealer (overhead : Nat) (failure : Failure) : Sealer Nat where
  overhead := overhead
  sealChunk left text :=
    match left with
    | 0 => (.error failure, 0)
    | n + 1 => (.ok text, n)

/-- The opening side of `failingSealer`. -/
def failingOpener (overhead : Nat) (failure : Failure) : Opener Nat where
  overhead := overhead
  openChunk left chunk :=
    match left with
    | 0 => (.error failure, 0)
    | n + 1 => (.ok chunk, n)

end Chunk

end SealedStream

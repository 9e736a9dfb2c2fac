import SealedStream.Aead
import SealedStream.Chunk
import SealedStream.Entropy

/-!
# Chunks under drawn nonces

The nonce of a chunk is drawn at random and put behind the sealed text, so
chunks can be opened in any order and the opener needs no state.
-/

namespace SealedStream

namespace Chunk

/-- A source of nonces and the number of chunks sealed. -/
structure Drawn (ρ : Type) where
  source : ρ
  sealed : Nat

/-- Seal chunks under drawn nonces.  Nothing is sealed if the draw fails. -/
def drawnSealer {ρ : Type} (a : Aead) (entropy : Entropy ρ) :
    Sealer (Drawn ρ) where
  overhead := Aead.tagSize + a.nonceSize
  sealChunk s text :=
    match entropy.draw s.source a.nonceSize with
    | (.error f, source) => (.error f, { s with source := source })
    | (.ok nonce, source) =>
        match a.sealText nonce text with
        | none => (.error .encryptionFailed, { s with source := source })
        | some chunk =>
            (.ok (chunk ++ nonce), ⟨source, s.sealed + 1⟩)

/-- Open chunks that carry their nonce at the end. -/
def openDrawn (a : Aead) (chunk : Bytes) : Except Failure Bytes :=
  if chunk.length < a.nonceSize then .error .nonceInvalid
  else if chunk.length < a.nonceSize + Aead.tagSize then
    .error .authenticationFailed
  else
    let n := chunk.length - a.nonceSize
    match a.openText (chunk.drop n) (chunk.take n) with
    | none => .error .authenticationFailed
    | some text => .ok text

/-- Open chunks under drawn nonces, in any order. -/
def drawnOpener (a : Aead) : Opener Unit where
  overhead := Aead.tagSize + a.nonceSize
  openChunk s chunk := (openDrawn a chunk, s)

end Chunk

end SealedStream

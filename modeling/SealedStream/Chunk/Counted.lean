import SealedStream.Aead
import SealedStream.Chunk
import SealedStream.NonceCounter

/-!
# Chunks under counted nonces

The nonce of a chunk is the value of a counter that both sides keep and that
moves on with every chunk sealed or opened.  The last value of the counter is
used once; then the codec is exhausted for good.  A call that fails leaves the
counter where it is, so a forged chunk does not bring the two sides out of
step.
-/

namespace SealedStream

namespace Chunk

/-- The counter of the next chunk, and whether the last one has been used. -/
structure Counted where
  counter : NonceCounter
  exhausted : Bool
  deriving DecidableEq, Repr

namespace Counted

/-- Start from a counter value, which has to be as wide as the nonce. -/
def start (a : Aead) (counter : NonceCounter) : Except Failure Counted :=
  if counter.length = a.nonceSize then .ok ⟨counter, false⟩
  else
    .error (.invalidConfig
      s!"nonce counter is {counter.length} bytes, cipher needs {a.nonceSize}")

/-- Start from zero. -/
def zero (a : Aead) : Counted :=
  ⟨.zero a.nonceSize, false⟩

/-- Move on after the counter has been used. -/
def advance (s : Counted) : Counted :=
  match s.counter.next with
  | .ok counter => { s with counter := counter }
  | .error _ => { s with exhausted := true }

end Counted

/-- Seal chunks under counted nonces. -/
def countedSealer (a : Aead) : Sealer Counted where
  overhead := Aead.tagSize
  sealChunk s text :=
    if s.exhausted then (.error .nonceExhausted, s)
    else
      match a.sealText s.counter text with
      | none => (.error .encryptionFailed, s)
      | some chunk => (.ok chunk, s.advance)

/-- Open chunks under counted nonces. -/
def countedOpener (a : Aead) : Opener Counted where
  overhead := Aead.tagSize
  openChunk s chunk :=
    if s.exhausted then (.error .nonceExhausted, s)
    else if chunk.length < Aead.tagSize then (.error .authenticationFailed, s)
    else
      match a.openText s.counter chunk with
      | none => (.error .authenticationFailed, s)
      | some text => (.ok text, s.advance)

end Chunk

end SealedStream

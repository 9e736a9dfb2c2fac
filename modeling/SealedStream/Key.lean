import SealedStream.Chunk.Counted
import SealedStream.Chunk.Drawn

/-!
# Keys

A key belongs to one suite and has its size.  It makes any number of sealers
and openers, each with a nonce state of its own; in counter mode they all
start from zero.
-/

namespace SealedStream

/-- The key of a suite. -/
structure Key where
  suite : Suite
  bytes : Bytes
  length_bytes : bytes.length = suite.keySize

namespace Key

/-- The key of these bytes, if there are as many as the suite needs. -/
def ofBytes (suite : Suite) (bs : Bytes) : Except Failure Key :=
  if h : bs.length = suite.keySize then .ok ⟨suite, bs, h⟩
  else .error (.keyInvalid suite.keySize bs.length)

/-- A key drawn at random. -/
def generate {ρ : Type} (suite : Suite) (entropy : Entropy ρ) (s : ρ) :
    Except Failure Key × ρ :=
  match entropy.draw s suite.keySize with
  | (.error f, s') => (.error f, s')
  | (.ok bs, s') => (ofBytes suite bs, s')

/-- A description that does not give the key away. -/
def describe (k : Key) : String :=
  "CipherKey \x7b suite: " ++ k.suite.label ++ ", bytes: \"[REDACTED]\" \x7d"

/-- The cipher of the key. -/
def aead (k : Key) : Aead :=
  k.suite.aead k.bytes

end Key

/-- The nonce state of a sealer made from a key. -/
inductive SealState (ρ : Type)
  | counted (state : Chunk.Counted)
  | drawn (state : Chunk.Drawn ρ)

/-- The nonce state of an opener made from a key. -/
inductive OpenState
  | counted (state : Chunk.Counted)
  | drawn

namespace Key

variable {ρ : Type}

/-- The sealer of a key in a nonce mode. -/
def sealer (k : Key) (mode : NonceMode) (entropy : Entropy ρ) :
    Sealer (SealState ρ) :=
  let a := k.aead
  let counted := Chunk.countedSealer a
  let drawn := Chunk.drawnSealer a entropy
  { overhead :=
      match mode with
      | .counter => counted.overhead
      | .random => drawn.overhead
    sealChunk := fun s text =>
      match s with
      | .counted s =>
          let (r, s') := counted.sealChunk s text
          (r, .counted s')
      | .drawn s =>
          let (r, s') := drawn.sealChunk s text
          (r, .drawn s') }

/-- The state in which a sealer of the key starts. -/
def sealState (k : Key) (mode : NonceMode) (source : ρ) : SealState ρ :=
  match mode with
  | .counter => .counted (.zero k.aead)
  | .random => .drawn ⟨source, 0⟩

/-- The opener of a key in a nonce mode. -/
def opener (k : Key) (mode : NonceMode) : Opener OpenState :=
  let a := k.aead
  let counted := Chunk.countedOpener a
  let drawn := Chunk.drawnOpener a
  { overhead :=
      match mode with
      | .counter => counted.overhead
      | .random => drawn.overhead
    openChunk := fun s chunk =>
      match s with
      | .counted s =>
          let (r, s') := counted.openChunk s chunk
          (r, .counted s')
      | .drawn =>
          let (r, _) := drawn.openChunk () chunk
          (r, .drawn) }

/-- The state in which an opener of the key starts. -/
def openState (k : Key) (mode : NonceMode) : OpenState :=
  match mode with
  | .counter => .counted (.zero k.aead)
  | .random => .drawn

end Key

end SealedStream

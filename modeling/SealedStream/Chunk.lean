import SealedStream.Failure

/-!
# Chunk codecs

A codec treats one chunk at a time and carries a state from call to call, such
as a nonce counter, so the boundaries between chunks matter.  A `Sealer` turns
plaintext into a sealed chunk, an `Opener` turns it back in the same order.
Both say by how many bytes a chunk grows.
-/

namespace SealedStream

/-- A way of sealing chunks, with states in `σ`. -/
structure Sealer (σ : Type) where
  /-- Bytes that a sealed chunk has beyond its plaintext. -/
  overhead : Nat
  sealChunk : σ → Bytes → Except Failure Bytes × σ

/-- A way of opening sealed chunks, with states in `σ`. -/
structure Opener (σ : Type) where
  /-- Bytes that a sealed chunk has beyond its plaintext. -/
  overhead : Nat
  openChunk : σ → Bytes → Except Failure Bytes × σ

end SealedStream

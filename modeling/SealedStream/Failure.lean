import SealedStream.IntForm
import SealedStream.IoError

/-!
# Failures of sealed streams

`Failure` lists every cause for which sealing, opening, framing or configuring
a stream can fail.  A stream that has failed keeps its first failure and
answers every later call with it.

The byte-channel interface of a stream reports a `ChannelError`: either the
interface's own complaint or a `Failure`, which can be recovered from it.
-/

namespace SealedStream

/-- Every cause of failure of the cipher layer and of the stream protocol, and
one that is no answer to a caller: asked for a buffer past all memory, the
program stops where it stands (`Failure.stops`). -/
inductive Failure
  | nonceExhausted
  | authenticationFailed
  | encryptionFailed
  | nonceInvalid
  | ciphertextInvalid
  | chunksReordered (expected found : Nat)
  | invalidTerminator
  | chunkTooBig (declared limit : Nat)
  | intTooWide (value : Nat) (form : IntForm)
  | streamTruncated
  | streamClosed
  | keyInvalid (expected actual : Nat)
  | random (reason : String)
  | invalidConfig (reason : String)
  | io (cause : IoError)
  | capacityOverflow
  deriving DecidableEq, Repr

namespace Failure

/-- The text shown to a user. -/
def message : Failure → String
  | .nonceExhausted =>
      "nonce space exhausted: no more chunks can be sealed under this key"
  | .authenticationFailed =>
      "authentication failed: wrong key, corrupted or tampered ciphertext"
  | .encryptionFailed => "encryption failed"
  | .nonceInvalid => "ciphertext has no nonce or the nonce is malformed"
  | .ciphertextInvalid => "ciphertext has an invalid format or is corrupted"
  | .chunksReordered expected found =>
      s!"stream chunks reordered: expected chunk {expected}, found {found}"
  | .invalidTerminator => "terminator chunk carries payload"
  | .chunkTooBig declared limit =>
      s!"declared chunk size {declared} exceeds limit {limit}"
  | .intTooWide value form =>
      s!"value {value} does not fit {form.label}"
  | .streamTruncated =>
      "stream truncated: input ended without a terminator chunk"
  | .streamClosed => "stream already closed"
  | .keyInvalid expected actual =>
      s!"invalid key length: expected {expected}, got {actual}"
  | .random reason => s!"random source failed: {reason}"
  | .invalidConfig reason => s!"config error: {reason}"
  | .io cause => s!"I/O error: {cause.message}"
  | .capacityOverflow => "capacity overflow"

/-- Failures that point at tampering or at a corrupt encoding. -/
def isTampering : Failure → Bool
  | .authenticationFailed | .nonceInvalid | .ciphertextInvalid
  | .chunksReordered .. | .invalidTerminator | .chunkTooBig .. => true
  | _ => false

/-- The program does not go on after this.  Nobody is given the failure, and
nothing is done any more that a failure would call for. -/
def stops (f : Failure) : Bool :=
  f = .capacityOverflow

/-- The kind under which a byte channel reports the failure.  An interrupted
cause is not passed on as such: the stream has failed for good, and a caller
would repeat the call for ever. -/
def ioKind : Failure → IoKind
  | .streamTruncated => .unexpectedEof
  | .streamClosed => .brokenPipe
  | .invalidConfig _ | .keyInvalid .. => .invalidInput
  | .io cause => if cause.isInterrupted then .other else cause.kind
  | .capacityOverflow => .outOfMemory
  | .nonceExhausted | .encryptionFailed | .intTooWide .. | .random _ => .other
  | .authenticationFailed | .nonceInvalid | .ciphertextInvalid
  | .chunksReordered .. | .invalidTerminator | .chunkTooBig .. => .invalidData

end Failure

/-- What the byte-channel interface of a stream reports. -/
inductive ChannelError
  | plain (error : IoError)
  | stream (failure : Failure)
  deriving DecidableEq, Repr

namespace ChannelError

/-- The kind of the error as a byte channel reports it. -/
def kind : ChannelError → IoKind
  | .plain e => e.kind
  | .stream f => f.ioKind

/-- The text shown to a user. -/
def message : ChannelError → String
  | .plain e => e.message
  | .stream f => f.message

/-- The stream's own failure, if there is one inside. -/
def failure? : ChannelError → Option Failure
  | .plain _ => none
  | .stream f => some f

end ChannelError

end SealedStream

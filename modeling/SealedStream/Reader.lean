import SealedStream.Chunk
import SealedStream.Layout
import SealedStream.IntForm.FromSource

/-!
# Reading a sealed stream

A reader takes frames from its source, opens the chunk in each, checks its
number and hands out the payload.  An empty answer to a read that asked for
something means that the terminator has been opened; a source that ends
sooner is `streamTruncated`, and only a successful `close` says that nothing
has been cut off.

Bytes that were there before a failure are handed out first.  The failure is
kept and answers every later call, and neither the source nor the codec is
touched again.
-/

namespace SealedStream

/-- Where a reader stands. -/
inductive Reader.Phase
  | reading
  | terminated
  | closed
  | failed (cause : Failure)
  deriving DecidableEq, Repr

/-- A sealed stream in the course of being opened. -/
structure Reader (σ : Type) where
  layout : Layout
  opener : Opener σ
  /-- The state of the opener. -/
  codec : σ
  source : Source
  /-- Payload that has been opened but not handed out. -/
  pending : Bytes
  expected : Nat
  phase : Reader.Phase

namespace Reader

variable {σ : Type}

/-- What the source holds next. -/
inductive Frame
  | chunk (sealed : Bytes)
  /-- A chunk shorter than a full one, which ends a fixed-size stream. -/
  | lastChunk (sealed : Bytes)
  /-- A bare length of zero, which ends a stream without counters. -/
  | terminator
  | endOfInput
  deriving DecidableEq, Repr

/-- A reader from a source.  The layout has to be sound. -/
def start (source : Source) (opener : Opener σ) (codec : σ) (layout : Layout) :
    Except Failure (Reader σ) :=
  match layout.check with
  | .error f => .error f
  | .ok () => .ok ⟨layout, opener, codec, source, [], 1, .reading⟩

/-- A reader for layouts of any size.  It differs from the one that `start`
makes if the chunks are of a fixed size that goes past a machine word: then
the reader takes what stands in the word for the size of a full chunk.  A word
that holds zero makes a reader that takes nothing from its source, and reading
then ends only if the opener fails. -/
def startInWords (source : Source) (opener : Opener σ) (codec : σ)
    (layout : Layout) : Except Failure (Reader σ) :=
  match start source opener codec layout with
  | .error f => .error f
  | .ok r =>
      if layout.lengthPrefix ∨ layout.bufferSize + opener.overhead < intBound then
        .ok r
      else
        .ok { r with
          layout := layout.withBufferSize 0
          opener := { opener with overhead := layout.fullSize opener.overhead } }

/-- The terminator has been opened, here or by an earlier call. -/
def isTerminated (r : Reader σ) : Bool :=
  r.phase = .terminated || r.phase = .closed

/-- Keep a failure. -/
def fail (r : Reader σ) (f : Failure) : Reader σ :=
  { r with phase := .failed f }

/-- Bytes of a full sealed chunk in a fixed-size stream.  The sum stands in a
machine word, or else `startInWords` has put there what is left of it. -/
def fullChunk (r : Reader σ) : Nat :=
  r.layout.bufferSize + r.opener.overhead

/-- Read a frame of a fixed-size stream into a buffer for a full chunk.  Where
sealing adds nothing, the empty last chunk takes no bytes and cannot be told
from the end of input. -/
def fillBuffer (r : Reader σ) : Except Failure Frame × Reader σ :=
  match r.source.gather r.fullChunk with
  | (.error e, source) => (.error (.io e), { r with source := source })
  | (.ok bs, source) =>
      let frame :=
        if bs.length = r.fullChunk then Frame.chunk bs
        else if bs.isEmpty ∧ 0 < r.opener.overhead then .endOfInput
        else .lastChunk bs
      (.ok frame, { r with source := source })

/-- The next frame of a fixed-size stream, once there is a buffer for it. -/
def fixedFrame (r : Reader σ) : Except Failure Frame × Reader σ :=
  if r.layout.Allocatable r.opener.overhead then r.fillBuffer
  else (.error .capacityOverflow, r)

/-- The chunk that follows a length on the wire. -/
def chunkOfLength (r : Reader σ) (declared : Nat) :
    Except Failure Frame × Reader σ :=
  match r.source.gather declared with
  | (.error e, source) => (.error (.io e), { r with source := source })
  | (.ok bs, source) =>
      (if bs.length < declared then .error .streamTruncated
        else .ok (.chunk bs),
        { r with source := source })

/-- Does a declared length exceed the limit, if there is one? -/
def exceeded? (limit : Option Nat) (declared : Nat) : Option Nat :=
  limit.filter (· < declared)

/-- The next frame of a stream whose chunks are preceded by their length. -/
def lengthFrame (r : Reader σ) (form : IntForm) :
    Except Failure Frame × Reader σ :=
  match form.fromSource r.source with
  | (.error f, source) => (.error f, { r with source := source })
  | (.ok none, source) => (.ok .endOfInput, { r with source := source })
  | (.ok (some declared), source) =>
      let r' := { r with source := source }
      if declared = 0 ∧ r.layout.counter? = none then (.ok .terminator, r')
      else
        match exceeded? (r.layout.chunkLimit? r.opener.overhead) declared with
        | some limit => (.error (.chunkTooBig declared limit), r')
        | none => r'.chunkOfLength declared

/-- Take the next frame from the source. -/
def nextFrame (r : Reader σ) : Except Failure Frame × Reader σ :=
  match r.layout.length? with
  | none => r.fixedFrame
  | some form => r.lengthFrame form

/-- The stream has ended as it should. -/
def terminate (r : Reader σ) : Reader σ :=
  { r with phase := .terminated }

/-- Check the number at the front of an opened chunk and keep the payload.
The number zero ends the stream and has to stand alone. -/
def acceptNumbered (r : Reader σ) (form : IntForm) (text : Bytes) :
    Except Failure Unit × Reader σ :=
  match form.decode text with
  | .error f => (.error f, r)
  | .ok (found, used) =>
      if found = 0 then
        if used = text.length then (.ok (), r.terminate)
        else (.error .invalidTerminator, r)
      else if found = r.expected then
        (.ok (), { r with
          pending := text.drop used
          expected := r.expected + 1 })
      else (.error (.chunksReordered r.expected found), r)

/-- Open a chunk and keep its payload. -/
def acceptChunk (r : Reader σ) (chunk : Bytes) : Except Failure Unit × Reader σ :=
  match r.opener.openChunk r.codec chunk with
  | (.error f, codec) => (.error f, { r with codec := codec })
  | (.ok text, codec) =>
      let r' := { r with codec := codec }
      match r.layout.counter? with
      | none => (.ok (), { r' with pending := text })
      | some form => r'.acceptNumbered form text

/-- Take one frame and keep the payload of its chunk. -/
def pull (r : Reader σ) : Except Failure Unit × Reader σ :=
  match r.nextFrame with
  | (.error f, r') => (.error f, r')
  | (.ok .endOfInput, r') => (.error .streamTruncated, r')
  | (.ok .terminator, r') => (.ok (), r'.terminate)
  | (.ok (.chunk bs), r') => r'.acceptChunk bs
  | (.ok (.lastChunk bs), r') =>
      match r'.acceptChunk bs with
      | (.ok (), r'') => (.ok (), r''.terminate)
      | (.error f, r'') => (.error f, r'')

/-- Hand out at most `n` bytes of the payload at hand. -/
def deliver (r : Reader σ) (n : Nat) : Bytes × Reader σ :=
  (r.pending.take n, { r with pending := r.pending.drop n })

/-- Hand out bytes until `want` more are there, the stream has ended or a
failure comes up, pulling at most `k` frames.  A failure is reported at once
only if nothing was handed out before it. -/
def supply : (k want : Nat) → (got : Bytes) → Reader σ →
    Except Failure Bytes × Reader σ
  | 0, want, got, r =>
      let (out, r') := r.deliver want
      (.ok (got ++ out), r')
  | k + 1, want, got, r =>
      let (out, r') := r.deliver want
      let got' := got ++ out
      if out.length = want ∨ r'.phase = .terminated then (.ok got', r')
      else
        match r'.pull with
        | (.ok (), r'') => supply k (want - out.length) got' r''
        | (.error f, r'') =>
            (if got'.isEmpty then .error f else .ok got', r''.fail f)

/-- Every frame that leaves a reader reading takes at least one byte or event
from the source, so a source of this weight yields no more frames. -/
def weight (s : Source) : Nat :=
  s.left + s.length + 1

/-- Read at most `n` bytes of plaintext.  An empty answer to a request for
some means that the terminator has been opened. -/
def read (r : Reader σ) (n : Nat) : Except Failure Bytes × Reader σ :=
  match r.phase with
  | .closed => (.error .streamClosed, r)
  | .failed f => (.error f, r)
  | .reading | .terminated => supply (weight r.source) n [] r

/-- Confirm that the stream has ended with its terminator. -/
def close (r : Reader σ) : Except Failure Unit × Reader σ :=
  match r.phase with
  | .terminated => (.ok (), { r with phase := .closed })
  | .reading => (.error .streamTruncated, r.fail .streamTruncated)
  | .failed f => (.error f, r)
  | .closed => (.error .streamClosed, r)

/-! ## Repeated reads -/

/-- What repeated reads have brought. -/
structure Drained where
  /-- The answers, latest first. -/
  pieces : List Bytes
  /-- Whether the reads have come to an end, and how; `none` if not. -/
  ending : Option (Except Failure Unit)

/-- All bytes of the answers, in order. -/
def Drained.bytes (d : Drained) : Bytes :=
  d.pieces.reverse.flatten

/-- Read with `n`-byte requests until an empty answer or a failure, at most
`k` times. -/
def drainWithin (n : Nat) :
    (k : Nat) → List Bytes → Reader σ → Drained × Reader σ
  | 0, pieces, r => (⟨pieces, none⟩, r)
  | k + 1, pieces, r =>
      match r.read n with
      | (.error f, r') => (⟨pieces, some (.error f)⟩, r')
      | (.ok bs, r') =>
          if bs.isEmpty then (⟨pieces, some (.ok ())⟩, r')
          else drainWithin n k (bs :: pieces) r'

/-- Reads that suffice for any opener that never lengthens a chunk. -/
def readsLeft (r : Reader σ) : Nat :=
  r.pending.length + r.source.left + 2

/-- Read with `n`-byte requests until an empty answer or a failure. -/
def drain (r : Reader σ) (n : Nat) : Drained × Reader σ :=
  drainWithin n r.readsLeft [] r

/-! ## The byte-channel interface -/

/-- `read` as a byte channel. -/
def readSome (r : Reader σ) (n : Nat) : Except ChannelError Bytes × Reader σ :=
  match r.read n with
  | (.ok bs, r') => (.ok bs, r')
  | (.error f, r') => (.error (.stream f), r')

/-- Read until `want` more bytes are there, in at most `k` calls. -/
def readExactWithin :
    (k want : Nat) → (got : Bytes) → Reader σ →
      Except ChannelError Bytes × Reader σ
  | 0, _, got, r => (.ok got, r)
  | k + 1, want, got, r =>
      if want = 0 then (.ok got, r)
      else
        match r.readSome want with
        | (.error e, r') => (.error e, r')
        | (.ok bs, r') =>
            if bs.isEmpty then (.error (.plain .inputTooShort), r')
            else readExactWithin k (want - bs.length) (got ++ bs) r'

/-- Read exactly `n` bytes.  A stream that ends sooner is too short. -/
def readExact (r : Reader σ) (n : Nat) : Except ChannelError Bytes × Reader σ :=
  readExactWithin (n + 1) n [] r

/-- Bytes asked for at a time by `readToEnd`. -/
def blockSize : Nat := 8192

/-- Read everything there is.  What came before a failure is kept. -/
def readToEnd (r : Reader σ) : Bytes × Option ChannelError × Reader σ :=
  let (d, r') := r.drain blockSize
  let failure :=
    match d.ending with
    | some (.error f) => some (.stream f)
    | _ => none
  (d.bytes, failure, r')

end Reader

end SealedStream

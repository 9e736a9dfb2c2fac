import SealedStream.Chunk
import SealedStream.Layout
import SealedStream.Sink

/-!
# Writing a sealed stream

A writer cuts plaintext into chunks, seals each one and sends it to its sink in
a frame.  With counters on, a chunk begins with its number, counted from one.

Nothing is final before `close`, which seals what is left, writes the
terminator and flushes the sink: the sealed counter zero, a bare length of
zero where there are no counters, or a chunk shorter than a full one where
there are no lengths either.

A failure is kept: from then on every call gives it again, and neither the
codec nor the sink is called.  A closed writer refuses every call but `flush`.
-/

namespace SealedStream

/-- Where a writer stands. -/
inductive Writer.Phase
  | writing
  | closed
  | failed (cause : Failure)
  deriving DecidableEq, Repr

/-- A stream in the course of being sealed. -/
structure Writer (σ : Type) where
  layout : Layout
  sealer : Sealer σ
  /-- The state of the sealer. -/
  codec : σ
  sink : Sink
  /-- Plaintext of the chunk being put together, its counter included. -/
  pending : Bytes
  nextCounter : Nat
  phase : Writer.Phase

namespace Writer

variable {σ : Type}

/-- The result of a step together with the writer it leaves behind. -/
abbrev Outcome (σ : Type) := Except Failure Unit × Writer σ

/-- Go on with the next step if there was no failure. -/
def Outcome.andThen (r : Outcome σ) (next : Writer σ → Outcome σ) : Outcome σ :=
  match r with
  | (.ok (), w) => next w
  | (.error f, w) => (.error f, w)

/-- The length of a full sealed chunk has to fit its form, where lengths are
written in front of full chunks. -/
def checkLength (layout : Layout) (capacity : Nat) : Except Failure Unit :=
  match layout.length? with
  | none => .ok ()
  | some form =>
      if layout.bufferSize ≠ 0 ∧ form.width? capacity = none then
        .error (.invalidConfig
          s!"a full {capacity}-byte chunk does not fit the {form.label} length prefix")
      else .ok ()

/-- A writer onto a sink.  The layout has to be sound, the length of a full
sealed chunk has to fit its form, and a buffer for the chunk is allocated. -/
def start (sink : Sink) (sealer : Sealer σ) (codec : σ) (layout : Layout) :
    Except Failure (Writer σ) :=
  match layout.check with
  | .error f => .error f
  | .ok () =>
      match checkLength layout (layout.fullSize sealer.overhead) with
      | .error f => .error f
      | .ok () =>
          if layout.Allocatable sealer.overhead then
            .ok ⟨layout, sealer, codec, sink, [], 1, .writing⟩
          else .error .capacityOverflow

/-- Keep a failure and report it. -/
def fail (w : Writer σ) (f : Failure) : Writer σ :=
  { w with phase := .failed f }

/-- Begin a chunk with its number, where chunks are numbered. -/
def beginChunk (w : Writer σ) : Outcome σ :=
  match w.layout.counter? with
  | none => (.ok (), w)
  | some form =>
      match form.encode w.nextCounter with
      | .error f => (.error f, w)
      | .ok bs =>
          let w' := { w with pending := w.pending ++ bs }
          if w.nextCounter + 1 < intBound then
            (.ok (), { w' with nextCounter := w.nextCounter + 1 })
          else (.error .nonceExhausted, w')

/-- Send bytes to the sink. -/
def send (w : Writer σ) (bs : Bytes) : Outcome σ :=
  match w.sink.writeAll bs with
  | (.ok (), sink) => (.ok (), { w with sink := sink })
  | (.error e, sink) => (.error (.io e), { w with sink := sink })

/-- Send a sealed chunk, preceded by its length where lengths are written. -/
def sendFrame (w : Writer σ) (chunk : Bytes) : Outcome σ :=
  match w.layout.length? with
  | none => w.send chunk
  | some form =>
      match form.encode chunk.length with
      | .error f => (.error f, w)
      | .ok bs => (w.send bs).andThen (·.send chunk)

/-- Seal the chunk that has been put together and send it. -/
def sealPending (w : Writer σ) : Outcome σ :=
  match w.sealer.sealChunk w.codec w.pending with
  | (.ok chunk, codec) =>
      sendFrame { w with codec := codec, pending := [] } chunk
  | (.error f, codec) =>
      (.error f, { w with codec := codec, pending := [] })

/-- Plaintext bytes that the chunk being put together still takes. -/
def room (w : Writer σ) : Nat :=
  w.layout.bufferSize - w.pending.length

/-- Add plaintext to the chunk being put together, sealing it each time it is
full.  Every round takes at least one byte, so there are at most `k` rounds
for `k` bytes. -/
def fill : (k : Nat) → Writer σ → Bytes → Outcome σ
  | 0, w, _ => (.ok (), w)
  | k + 1, w, data =>
      if data.isEmpty then (.ok (), w)
      else
        Outcome.andThen
          (if w.pending.isEmpty then w.beginChunk else (.ok (), w))
          fun w =>
            let w' := { w with pending := w.pending ++ data.take w.room }
            Outcome.andThen
              (if w'.room = 0 then w'.sealPending else (.ok (), w'))
              fun w'' => fill k w'' (data.drop w.room)

/-- Seal plaintext as a chunk of its own. -/
def sealWhole (w : Writer σ) (data : Bytes) : Outcome σ :=
  w.beginChunk.andThen fun w =>
    sealPending { w with pending := w.pending ++ data }

/-- Encrypt plaintext into the stream.  The answer is how much was taken in,
which is all of it. -/
def write (w : Writer σ) (data : Bytes) : Except Failure Nat × Writer σ :=
  match w.phase with
  | .closed => (.error .streamClosed, w)
  | .failed f => (.error f, w)
  | .writing =>
      if data.isEmpty then (.ok 0, w)
      else
        match
          if w.layout.bufferSize = 0 then w.sealWhole data
          else fill data.length w data
        with
        | (.ok (), w') => (.ok data.length, w')
        | (.error f, w') => (.error f, w'.fail f)

/-- Flush the sink as the last step of a stream. -/
def flushSink (w : Writer σ) : Outcome σ :=
  match w.sink.flush with
  | (.ok (), sink) => (.ok (), { w with sink := sink })
  | (.error e, sink) => (.error (.io e), { w with sink := sink })

/-- Write what ends the stream. -/
def terminate (w : Writer σ) : Outcome σ :=
  match w.layout.length? with
  | none => w.sealPending
  | some form =>
      Outcome.andThen
        (if w.pending.isEmpty then (.ok (), w) else w.sealPending)
        fun w =>
          match w.layout.counter? with
          | some counter =>
              match counter.encode 0 with
              | .error f => (.error f, w)
              | .ok bs => sealPending { w with pending := w.pending ++ bs }
          | none =>
              match form.encode 0 with
              | .error f => (.error f, w)
              | .ok bs => w.send bs

/-- Seal what is left, write the terminator and flush the sink. -/
def close (w : Writer σ) : Except Failure Unit × Writer σ :=
  match w.phase with
  | .closed => (.error .streamClosed, w)
  | .failed f => (.error f, w)
  | .writing =>
      match w.terminate.andThen flushSink with
      | (.ok (), w') => (.ok (), { w' with phase := .closed })
      | (.error f, w') => (.error f, w'.fail f)

/-! ## The byte-channel interface -/

/-- `write` as a byte channel. -/
def writeSome (w : Writer σ) (data : Bytes) :
    Except ChannelError Nat × Writer σ :=
  match w.write data with
  | (.ok n, w') => (.ok n, w')
  | (.error f, w') => (.error (.stream f), w')

/-- Write all of the bytes.  Writing nothing makes no call and so succeeds in
every phase. -/
def writeAll (w : Writer σ) (data : Bytes) :
    Except ChannelError Unit × Writer σ :=
  if data.isEmpty then (.ok (), w)
  else
    match w.writeSome data with
    | (.ok _, w') => (.ok (), w')
    | (.error e, w') => (.error e, w')

/-- Flush the sink.  A chunk that is not full stays with the writer, and a
failure of the sink is passed on without being kept. -/
def flush (w : Writer σ) : Except ChannelError Unit × Writer σ :=
  match w.phase with
  | .failed f => (.error (.stream f), w)
  | .writing | .closed =>
      match w.sink.flush with
      | (.ok (), sink) => (.ok (), { w with sink := sink })
      | (.error e, sink) => (.error (.plain e), { w with sink := sink })

end Writer

end SealedStream

import SealedStream.Failure

/-!
# Sinks of bytes

A sink answers each write call by accepting some of the bytes offered or by
failing, as its schedule of replies says; when the schedule has run out it
accepts everything.  `Sink.bytes` is the view that counts: what has been
accepted so far.
-/

namespace SealedStream

/-- The answer to one call: accept at most so many bytes, or fail. -/
inductive Sink.Reply
  | accept (limit : Nat)
  | failure (error : IoError)
  deriving DecidableEq, Repr

/-- A sink: the replies to come, the pieces accepted (latest first) and how
often it has been called. -/
structure Sink where
  writes : List Sink.Reply
  flushes : List Sink.Reply
  pieces : List Bytes
  writeCalls : Nat
  flushCalls : Nat
  deriving DecidableEq, Repr

namespace Sink

/-- A sink with a schedule of faults and nothing accepted yet. -/
def scheduled (writes flushes : List Reply) : Sink :=
  ⟨writes, flushes, [], 0, 0⟩

/-- A sink that accepts everything. -/
def perfect : Sink :=
  scheduled [] []

/-- Everything accepted so far. -/
def bytes (s : Sink) : Bytes :=
  s.pieces.reverse.flatten

/-- How many bytes have been accepted so far. -/
def size (s : Sink) : Nat :=
  s.pieces.foldl (fun n bs => n + bs.length) 0

/-- Take bytes in. -/
def push (s : Sink) (bs : Bytes) : Sink :=
  { s with pieces := bs :: s.pieces }

/-- Offer bytes to a sink with the given replies to come, until all are
accepted, none is, or a call fails; interrupted calls are repeated. -/
def deliver (s : Sink) : List Reply → Bytes → Except IoError Unit × Sink
  | replies, [] => (.ok (), { s with writes := replies })
  | [], b :: bs =>
      (.ok (), { s.push (b :: bs) with
        writes := [], writeCalls := s.writeCalls + 1 })
  | .accept limit :: replies, b :: bs =>
      let s' := { s with writeCalls := s.writeCalls + 1 }
      if limit = 0 then (.error .nothingWritten, { s' with writes := replies })
      else
        deliver (s'.push ((b :: bs).take limit)) replies ((b :: bs).drop limit)
  | .failure e :: replies, b :: bs =>
      let s' := { s with writeCalls := s.writeCalls + 1 }
      if e.isInterrupted then deliver s' replies (b :: bs)
      else (.error e, { s' with writes := replies })

/-- Write all of the bytes.  Writing nothing makes no call. -/
def writeAll (s : Sink) (bs : Bytes) : Except IoError Unit × Sink :=
  s.deliver s.writes bs

/-- One flush call; a failure is passed on whatever its kind. -/
def flush (s : Sink) : Except IoError Unit × Sink :=
  let s' := { s with flushCalls := s.flushCalls + 1 }
  match s.flushes with
  | [] => (.ok (), s')
  | .accept _ :: replies => (.ok (), { s' with flushes := replies })
  | .failure e :: replies => (.error e, { s' with flushes := replies })

@[simp] theorem bytes_push (s : Sink) (bs : Bytes) :
    (s.push bs).bytes = s.bytes ++ bs := by
  simp [push, bytes]

end Sink

end SealedStream

import SealedStream.Failure

/-!
# Sources of bytes

A source hands out its bytes in pieces that it chooses, may report its end
more than once, and may fail in between.  `read` is a single call; `gather`
calls until it has what it wants, the source ends, or an error other than an
interruption comes up.
-/

namespace SealedStream

/-- What calls to a source meet, in order. -/
inductive Source.Event
  | data (bytes : Bytes)
  | ended
  | failure (error : IoError)
  deriving DecidableEq, Repr

/-- A source is the list of what is still to come; after that it has ended. -/
abbrev Source := List Source.Event

namespace Source

/-- A source that delivers a byte string in one piece. -/
def ofBytes (bs : Bytes) : Source :=
  [.data bs]

/-- The bytes that an event delivers. -/
def Event.bytes : Event → Bytes
  | .data bs => bs
  | .ended | .failure _ => []

/-- The bytes not read yet, whatever stands between them. -/
def bytes (s : Source) : Bytes :=
  s.flatMap Event.bytes

/-- How many bytes have not been read yet. -/
def left : Source → Nat
  | [] => 0
  | e :: s => e.bytes.length + left s

/-- One call for at most `n` bytes.  Asking for none touches nothing; an empty
answer otherwise means that the source has ended. -/
def read (n : Nat) : Source → Except IoError Bytes × Source
  | [] => (.ok [], [])
  | .data bs :: rest =>
      if n = 0 then (.ok [], .data bs :: rest)
      else if bs.isEmpty then read n rest
      else if bs.length ≤ n then (.ok bs, rest)
      else (.ok (bs.take n), .data (bs.drop n) :: rest)
  | .ended :: rest =>
      if n = 0 then (.ok [], .ended :: rest) else (.ok [], rest)
  | .failure e :: rest =>
      if n = 0 then (.ok [], .failure e :: rest) else (.error e, rest)

/-- Read until `n` bytes are there or the source ends, repeating interrupted
calls.  Bytes that came before an error are lost with it. -/
def gather (n : Nat) : Source → Except IoError Bytes × Source
  | [] => (.ok [], [])
  | .data bs :: rest =>
      if n = 0 then (.ok [], .data bs :: rest)
      else if n < bs.length then (.ok (bs.take n), .data (bs.drop n) :: rest)
      else
        let (more, rest') := gather (n - bs.length) rest
        (more.map (bs ++ ·), rest')
  | .ended :: rest =>
      if n = 0 then (.ok [], .ended :: rest) else (.ok [], rest)
  | .failure e :: rest =>
      if n = 0 then (.ok [], .failure e :: rest)
      else if e.isInterrupted then gather n rest
      else (.error e, rest)

/-- Read exactly `n` bytes; a source that ends sooner is too short. -/
def readExact (n : Nat) (s : Source) : Except IoError Bytes × Source :=
  match s.gather n with
  | (.ok bs, s') =>
      if bs.length < n then (.error .inputTooShort, s') else (.ok bs, s')
  | (.error e, s') => (.error e, s')

end Source

end SealedStream

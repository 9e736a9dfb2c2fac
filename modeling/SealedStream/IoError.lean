/-!
# Errors of byte channels

A byte channel (a file, a pipe, a socket) reports what went wrong as a kind
and, where it knows more, a text of its own.  Only the kind steers a program:
an interrupted call is repeated, everything else is passed on.
-/

namespace SealedStream

/-- What went wrong on a byte channel. -/
inductive IoKind
  | notFound
  | permissionDenied
  | connectionRefused
  | connectionReset
  | connectionAborted
  | notConnected
  | addressInUse
  | brokenPipe
  | alreadyExists
  | wouldBlock
  | notADirectory
  | isADirectory
  | invalidInput
  | invalidData
  | timedOut
  | writeZero
  | interrupted
  | unexpectedEof
  | outOfMemory
  | other
  deriving DecidableEq, Repr

/-- The words for a kind when the channel has none of its own. -/
def IoKind.description : IoKind → String
  | .notFound => "entity not found"
  | .permissionDenied => "permission denied"
  | .connectionRefused => "connection refused"
  | .connectionReset => "connection reset"
  | .connectionAborted => "connection aborted"
  | .notConnected => "not connected"
  | .addressInUse => "address in use"
  | .brokenPipe => "broken pipe"
  | .alreadyExists => "entity already exists"
  | .wouldBlock => "operation would block"
  | .notADirectory => "not a directory"
  | .isADirectory => "is a directory"
  | .invalidInput => "invalid input parameter"
  | .invalidData => "invalid data"
  | .timedOut => "timed out"
  | .writeZero => "write zero"
  | .interrupted => "operation interrupted"
  | .unexpectedEof => "unexpected end of file"
  | .outOfMemory => "out of memory"
  | .other => "other error"

/-- An error of a byte channel: its kind and the channel's own words, if any. -/
structure IoError where
  kind : IoKind
  text : Option String
  deriving DecidableEq, Repr

namespace IoError

/-- The channel's words, or else those of the kind. -/
def message (e : IoError) : String :=
  e.text.getD e.kind.description

/-- A writer that accepts no byte of a non-empty request has given up. -/
def nothingWritten : IoError :=
  ⟨.writeZero, some "failed to write whole buffer"⟩

/-- The input ended before an exact read was satisfied. -/
def inputTooShort : IoError :=
  ⟨.unexpectedEof, some "failed to fill whole buffer"⟩

/-- An interrupted call has had no effect and is repeated. -/
def isInterrupted (e : IoError) : Bool :=
  e.kind = .interrupted

end IoError

end SealedStream

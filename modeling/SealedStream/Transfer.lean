import SealedStream.Settings
import SealedStream.Stream

/-!
# Transfers

A transfer seals or opens a whole input.  Under a key its sealed side is a
stream and nothing else.  Under a password the stream is preceded by the salt
that went into the making of its key.

What a transfer has put out stays put out when it fails; whoever asked for it
decides what becomes of it.  It is put out into a sink, which can fail as well.
-/

namespace SealedStream

/-- What a stream is sealed under. -/
inductive Secret
  | key (key : Key)
  | password (password : String)

namespace Transfer

/-- Why a transfer has failed. -/
inductive Problem
  | saltNotDrawn (failure : Failure)
  | saltNotWritten (error : IoError)
  | saltNotRead (error : IoError)
  | keyNotDerived (failure : Failure)
  | notStarted (failure : Failure)
  | notEncrypted (error : ChannelError)
  | notFinished (failure : Failure)
  | notDecrypted (failure : Failure)
  | outputNotWritten (error : IoError)
  | endNotVerified (failure : Failure)
  | outputNotFlushed (error : IoError)
  deriving DecidableEq, Repr

/-- What a user is told, the most general statement first. -/
def Problem.chain : Problem → List String
  | .saltNotDrawn failure => ["generating salt", failure.message]
  | .saltNotWritten error => ["writing salt", error.message]
  | .saltNotRead error => ["reading salt", error.message]
  | .keyNotDerived failure => ["deriving key from password", failure.message]
  | .notStarted failure => [failure.message]
  | .notEncrypted error => ["encrypting stream", error.message]
  | .notFinished failure => ["finishing stream", failure.message]
  | .notDecrypted failure =>
      [if failure.isTampering then "stream rejected: tampered or corrupt"
        else "decrypting stream",
        failure.message]
  | .outputNotWritten error => ["decrypting stream", error.message]
  | .endNotVerified failure => ["verifying end of stream", failure.message]
  | .outputNotFlushed error => ["flushing output", error.message]

/-- The program has been stopped, for want of a buffer for a full chunk. -/
def Problem.stops : Problem → Bool
  | .notStarted failure | .notDecrypted failure => failure.stops
  | _ => false

end Transfer

/-- What a transfer has put out and how it has ended: with the number of
plaintext bytes, or with a problem. -/
structure Transfer where
  output : Bytes
  ending : Except Transfer.Problem Nat

namespace Transfer

/-- Bytes that are read at a time. -/
def blockSize : Nat := 8192

/-! ## Sealing -/

/-- Write what a source holds into a stream, reading at most `k` times; `count`
bytes have been written before. -/
def feed {σ : Type} : (k count : Nat) → Source → Writer σ →
    Except ChannelError Nat × Writer σ
  | 0, count, _, w => (.ok count, w)
  | k + 1, count, source, w =>
      match source.read blockSize with
      | (.error e, source') =>
          if e.isInterrupted then feed k count source' w
          else (.error (.plain e), w)
      | (.ok bs, source') =>
          if bs.isEmpty then (.ok count, w)
          else
            match w.writeAll bs with
            | (.ok (), w') => feed k (count + bs.length) source' w'
            | (.error e, w') => (.error e, w')

/-- Every read takes a byte or an event from a source, so there are no more
reads than this. -/
def readsOf (source : Source) : Nat :=
  source.left + source.length + 1

variable {ρ : Type}

/-- Seal an input under a key, after what the sink already holds. -/
def encryptUnder (key : Key) (layout : Layout) (sink : Sink) (input : Source)
    (entropy : Entropy ρ) (s : ρ) : Transfer :=
  match Writer.underKey sink key layout entropy s with
  | .error failure => ⟨sink.bytes, .error (.notStarted failure)⟩
  | .ok w =>
      match feed (readsOf input) 0 input w with
      | (.error error, w') => ⟨w'.sink.bytes, .error (.notEncrypted error)⟩
      | (.ok count, w') =>
          match w'.close with
          | (.error failure, w'') =>
              ⟨w''.sink.bytes, .error (.notFinished failure)⟩
          | (.ok (), w'') => ⟨w''.sink.bytes, .ok count⟩

/-- Seal an input into a sink.  A password gets a fresh salt, which is put out
first. -/
def encryptOnto (sink : Sink) (settings : Settings) (secret : Secret)
    (input : Source) (entropy : Entropy ρ) (s : ρ) : Transfer :=
  match secret with
  | .key key => encryptUnder key settings.layout sink input entropy s
  | .password password =>
      match entropy.draw s Password.saltSize with
      | (.error failure, _) => ⟨sink.bytes, .error (.saltNotDrawn failure)⟩
      | (.ok salt, s') =>
          match sink.writeAll salt with
          | (.error error, sink') =>
              ⟨sink'.bytes, .error (.saltNotWritten error)⟩
          | (.ok (), sink') =>
              match Password.deriveKey password salt settings.cost
                  settings.suite with
              | .error failure => ⟨sink'.bytes, .error (.keyNotDerived failure)⟩
              | .ok key =>
                  encryptUnder key settings.layout sink' input entropy s'

/-- Seal an input into a sink that takes everything. -/
def encrypt (settings : Settings) (secret : Secret) (input : Source)
    (entropy : Entropy ρ) (s : ρ) : Transfer :=
  encryptOnto .perfect settings secret input entropy s

/-! ## Opening -/

/-- Open an input under a key.  It counts as complete only when the end of the
stream has been confirmed. -/
def decryptUnder (key : Key) (layout : Layout) (input : Source) : Transfer :=
  match Reader.underKey input key layout with
  | .error failure => ⟨[], .error (.notStarted failure)⟩
  | .ok r =>
      let (drained, r') := r.drain blockSize
      let output := drained.bytes
      match drained.ending with
      | some (.error failure) => ⟨output, .error (.notDecrypted failure)⟩
      | _ =>
          match r'.close with
          | (.error failure, _) => ⟨output, .error (.endNotVerified failure)⟩
          | (.ok (), _) => ⟨output, .ok output.length⟩

/-- Open an input.  For a password its salt is read first. -/
def decrypt (settings : Settings) (secret : Secret) (input : Source) :
    Transfer :=
  match secret with
  | .key key => decryptUnder key settings.layout input
  | .password password =>
      match input.readExact Password.saltSize with
      | (.error error, _) => ⟨[], .error (.saltNotRead error)⟩
      | (.ok salt, rest) =>
          match Password.deriveKey password salt settings.cost settings.suite with
          | .error failure => ⟨[], .error (.keyNotDerived failure)⟩
          | .ok key => decryptUnder key settings.layout rest

/-- Write blocks into a sink, one after the other. -/
def pour : List Bytes → Sink → Except IoError Unit × Sink
  | [], sink => (.ok (), sink)
  | block :: blocks, sink =>
      match sink.writeAll block with
      | (.error error, sink') => (.error error, sink')
      | (.ok (), sink') => pour blocks sink'

/-- Open an input into a sink.  What one read has brought is written before the
next read, and all reads but the last fill their buffer.  So whatever ends the
reading comes after the blocks that have been read, and only a confirmed end
is followed by a flush. -/
def decryptOnto (sink : Sink) (settings : Settings) (secret : Secret)
    (input : Source) : Transfer :=
  let t := decrypt settings secret input
  match pour (Bytes.pieces blockSize t.output) sink with
  | (.error error, sink') => ⟨sink'.bytes, .error (.outputNotWritten error)⟩
  | (.ok (), sink') =>
      match t.ending with
      | .error problem => ⟨sink'.bytes, .error problem⟩
      | .ok count =>
          match sink'.flush with
          | (.error error, sink'') =>
              ⟨sink''.bytes, .error (.outputNotFlushed error)⟩
          | (.ok (), sink'') => ⟨sink''.bytes, .ok count⟩

end Transfer

end SealedStream

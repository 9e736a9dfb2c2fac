import SealedStream.Command.Arguments
import SealedStream.Command.Run

/-!
# The program

The outermost layer looks at the files that a request names, lets the request
run on what it has seen, and carries out what has come of it.
-/

namespace SealedStream

namespace Program

/-- What is at a place of the file system. -/
def look (p : Place) : IO (Option Node) := do
  try
    let contents ← IO.FS.readBinFile p.path
    return some (.file contents.toList false)
  catch
    | .noFileOrDirectory .. => return none
    | e =>
        -- What can be opened but not read is a folder.
        let opened ← (IO.FS.Handle.mk p.path .read).toBaseIO
        match opened with
        | .ok _ => return some .folder
        | .error _ => throw e

/-- The files at the places that some paths lead through. -/
def lookAlong (paths : List String) : IO (Files × List Place) := do
  let places := (paths.flatMap Files.through).eraseDups.filter (!·.isAnchor)
  let mut files := Files.empty
  for p in places do
    -- Beyond a file or a gap there is nothing.
    if files p.dropLast = some .folder then
      if let some node ← look p then
        files := files.put p node
  return (files, places)

/-- Write a file anew or replace its contents. -/
def write (p : Place) (before : Option Node) (contents : Bytes)
    (ownerOnly : Bool) : IO Unit := do
  if before.isNone then
    let _ ← IO.FS.Handle.mk p.path .writeNew
    if ownerOnly then
      IO.setAccessRights p.path ⟨⟨true, true, false⟩, {}, {}⟩
  IO.FS.writeBinFile p.path ⟨contents.toArray⟩

/-- Bring the file system from one state to another, as far as they differ.
The answer is the places whose files could not be taken away. -/
def settle (places : List Place) (before after : Files) : IO (List Place) := do
  let mut stuck := []
  for p in places do
    if before p ≠ after p then
      match after p with
      | some (.file contents ownerOnly) =>
          write p (before p) contents ownerOnly
      | some .folder => pure ()
      | none =>
          match ← (IO.FS.removeFile p.path).toBaseIO with
          | .ok () => pure ()
          | .error _ => stuck := p :: stuck
  return stuck

/-- Read a stream to its end. -/
partial def readAll (stream : IO.FS.Stream) (got : ByteArray) :
    IO ByteArray := do
  let piece ← stream.read 65536
  if piece.isEmpty then return got
  readAll stream (got ++ piece)

/-- The variables of the environment that matter. -/
def environment : IO Environment := do
  let mut found := []
  for name in [Environment.settingsPath, Environment.password] do
    if let some value ← IO.getEnv name then
      found := (name, value) :: found
  return found

/-- A line that is typed when the password is asked for. -/
def typedPassword : IO (Except IoError String) := do
  try
    let terminal ← IO.FS.Handle.mk "/dev/tty" .readWrite
    terminal.putStr "Password: "
    terminal.flush
    return .ok ((← terminal.getLine).dropEndWhile (· = '\n')).toString
  catch e => return .error ⟨.other, some e.toString⟩

/-- A report of a failure: the most general statement, then its causes. -/
def report (chain : List String) : String :=
  match chain with
  | [] => "Error\n"
  | [first] => "Error: " ++ first ++ "\n"
  | first :: causes =>
      "Error: " ++ first ++ "\n\nCaused by:\n" ++
        String.join (causes.map fun c => "    " ++ c ++ "\n")

/-- The files, and whether standard input is read and a password is needed, of a
request. -/
def needs : Request → List String × Bool × Bool
  | .perform path action =>
      (path :: action.paths, action.readsInput, action.needsPassword)
  | .help | .version => ([], false, false)

/-- Answer a request. -/
def respond (request : Request) (env : Environment) : IO UInt32 := do
  let (paths, reads, asks) := needs request
  let (files, places) ← lookAlong paths
  let input ← if reads then readAll (← IO.getStdin) .empty else pure .empty
  let typed ←
    if asks ∧ (env.lookup Environment.password).isNone then typedPassword
    else pure (.ok "")
  let seed ← IO.getRandomBytes 32
  let now : Command.Situation :=
    { files := files, input := .ofBytes input.toList, environment := env, typed := typed }
  let run (now : Command.Situation) :=
    Command.run now request Entropy.seeded ⟨seed.toList, 0⟩
  let out := run now
  let stuck ← settle places files out.files
  if ¬ stuck.isEmpty then
    -- What cannot be taken away stays as the run has left it.
    let _ ← settle places files (run { now with removable := (· ∉ stuck) }).files
  let stdout ← IO.getStdout
  stdout.write ⟨out.printed.toArray⟩
  stdout.flush
  match out.ending with
  | .ok () => pure ()
  | .error problem => (← IO.getStderr).putStr (report problem.chain)
  return out.code

/-- Do what a command line asks for.  One that asks for nothing ends with code
2. -/
def start (args : List String) : IO UInt32 := do
  let env ← environment
  match Request.ofArguments? env args with
  | some request => respond request env
  | none =>
      (← IO.getStderr).putStr Command.usage
      return 2

end Program

end SealedStream

/-- The program. -/
def main (args : List String) : IO UInt32 :=
  SealedStream.Program.start args

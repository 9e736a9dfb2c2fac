import SealedStream.Command
import SealedStream.Key.File
import SealedStream.Settings.File
import SealedStream.Transfer

/-!
# Running commands

A run reads the configuration, then the secret, then opens its input and its
output, and only then does its work; the first of these that fails ends it.
Writing to a file empties it before anything is read.  A failed decryption
takes its output file away, so that no unverified plaintext stays behind; if
the file cannot be taken away it stays, and nobody is told.

A run that is stopped for want of memory takes nothing away.
-/

namespace SealedStream

namespace Command

/-- Why a run has failed. -/
inductive Problem
  | settings (path : String) (problem : Settings.Problem)
  | keyNotGenerated (failure : Failure)
  | keyNotWritten (path : String) (error : IoError)
  | keyNotRead (path : String) (error : IoError)
  | keyNotLoaded (path : String) (problem : Key.TextProblem)
  | passwordNotRead (error : IoError)
  | emptyPassword
  | inputNotOpened (path : String) (error : IoError)
  | outputNotCreated (path : String) (error : IoError)
  | transfer (problem : Transfer.Problem)
  deriving DecidableEq, Repr

/-- What a user is told, the most general statement first. -/
def Problem.chain : Problem → List String
  | .settings path problem => problem.chain path
  | .keyNotGenerated failure => ["generating key", failure.message]
  | .keyNotWritten path error => ["writing key file: " ++ path, error.message]
  | .keyNotRead path error => ["reading key file: " ++ path, error.message]
  | .keyNotLoaded path problem => ["loading key file: " ++ path, problem.message]
  | .passwordNotRead error => ["reading password", error.message]
  | .emptyPassword => ["empty password"]
  | .inputNotOpened path error => ["opening input: " ++ path, error.message]
  | .outputNotCreated path error => ["creating output: " ++ path, error.message]
  | .transfer problem => problem.chain

/-- The program has been stopped. -/
def Problem.stops : Problem → Bool
  | .transfer problem => problem.stops
  | _ => false

/-- What a run finds. -/
structure Situation where
  files : Files
  /-- Standard input. -/
  input : Source
  environment : Environment
  /-- What is typed when the password is asked for. -/
  typed : Except IoError String := .ok ""
  /-- How writing to the output goes. -/
  writes : List Sink.Reply := []
  /-- How flushing the output goes. -/
  flushes : List Sink.Reply := []
  /-- The files that can be taken away. -/
  removable : Place → Bool := fun _ => true

/-- Files, and nothing that stands in the way of a run. -/
def Situation.ofFiles (files : Files) : Situation where
  files := files
  input := []
  environment := []

/-- The output of a transfer. -/
def Situation.outlet (now : Situation) : Sink :=
  .scheduled now.writes now.flushes

/-- What a run leaves behind. -/
structure Outcome where
  files : Files
  /-- Standard output. -/
  printed : Bytes
  ending : Except Problem Unit

namespace Outcome

/-- A run that has failed and changed nothing. -/
def unchanged (fs : Files) (problem : Problem) : Outcome :=
  ⟨fs, [], .error problem⟩

/-- A run that has printed a text and changed nothing. -/
def shown (fs : Files) (text : String) : Outcome :=
  ⟨fs, text.toUTF8.toList, .ok ()⟩

/-- The code with which the program ends. -/
def code (out : Outcome) : UInt32 :=
  match out.ending with
  | .ok () => 0
  | .error problem => if problem.stops then 101 else 1

end Outcome

/-! ## Secrets and ends -/

/-- The key in a key file. -/
def readKey (fs : Files) (path : String) : Except Problem Key :=
  match fs.readText path with
  | .error error => .error (.keyNotRead path error)
  | .ok text =>
      match Key.ofText text.toList with
      | .error problem => .error (.keyNotLoaded path problem)
      | .ok key => .ok key

/-- The password in the environment, or the one that is typed if there is none. -/
def givenPassword (now : Situation) : Except IoError String :=
  match now.environment.lookup Environment.password with
  | some password => .ok password
  | none => now.typed

/-- The secret of a transfer.  No password is empty. -/
def secret (now : Situation) : SecretChoice → Except Problem Secret
  | .keyFile path => (readKey now.files path).map .key
  | .password =>
      match givenPassword now with
      | .error error => .error (.passwordNotRead error)
      | .ok "" => .error .emptyPassword
      | .ok password => .ok (.password password)

/-- A transfer that is ready to begin: what it is to work on and where its
output goes. -/
structure Ready where
  secret : Secret
  /-- The place of the output file; without one it is printed. -/
  target : Option Place
  /-- The files, the output file being empty. -/
  files : Files
  input : Source

/-- Open the input file, if there is one. -/
def openInput (fs : Files) : Option String → Except Problem (Option Place)
  | none => .ok none
  | some path =>
      match fs.openPlace path with
      | .error error => .error (.inputNotOpened path error)
      | .ok place => .ok (some place)

/-- Create the output file, if there is one. -/
def createOutput (fs : Files) : Option String →
    Except Problem (Option Place × Files)
  | none => .ok (none, fs)
  | some path =>
      match fs.create path with
      | .error error => .error (.outputNotCreated path error)
      | .ok (place, fs') => .ok (some place, fs')

/-- Get the secret, then open the input, then create the output.  The input is
read after that, so an input that is the output file as well has lost its
contents. -/
def prepare (now : Situation) (ends : Ends) (choice : SecretChoice) :
    Except Problem Ready :=
  match secret now choice with
  | .error problem => .error problem
  | .ok s =>
      match openInput now.files ends.input with
      | .error problem => .error problem
      | .ok opened =>
          match createOutput now.files ends.output with
          | .error problem => .error problem
          | .ok (target, files) =>
              let input := (opened.map files.sourceAt).getD now.input
              .ok ⟨s, target, files, input⟩

/-- Put out what a transfer has brought. -/
def Ready.put (r : Ready) (output : Bytes) (ending : Except Problem Unit) :
    Outcome :=
  match r.target with
  | none => ⟨r.files, output, ending⟩
  | some place => ⟨r.files.fill place output, [], ending⟩

/-- What becomes of what a transfer has brought when it fails: the output file
is taken away, if it can be and the program has not been stopped. -/
def Ready.discard (r : Ready) (now : Situation) (output : Bytes)
    (problem : Transfer.Problem) : Outcome :=
  match r.target with
  | none => r.put output (.error (.transfer problem))
  | some place =>
      if now.removable place ∧ ¬ problem.stops then
        ⟨r.files.erase place, [], .error (.transfer problem)⟩
      else r.put output (.error (.transfer problem))

/-! ## Actions -/

variable {ρ : Type}

/-- Make a key and write it to a new file, or print it. -/
def keygen (now : Situation) (suite : Suite) (output : Option String)
    (entropy : Entropy ρ) (s : ρ) : Outcome :=
  match (Key.generate suite entropy s).1 with
  | .error failure => .unchanged now.files (.keyNotGenerated failure)
  | .ok key =>
      let text := String.ofList (key.toText ++ ['\n'])
      match output with
      | none => .shown now.files text
      | some path =>
          match now.files.createSecret path text.toUTF8.toList with
          | .error error => .unchanged now.files (.keyNotWritten path error)
          | .ok files => ⟨files, [], .ok ()⟩

/-- Seal the input.  What a failed run has put out stays. -/
def encrypt (now : Situation) (settings : Settings) (ends : Ends)
    (choice : SecretChoice) (entropy : Entropy ρ) (s : ρ) : Outcome :=
  match prepare now ends choice with
  | .error problem => .unchanged now.files problem
  | .ok r =>
      let t := Transfer.encryptOnto now.outlet settings r.secret r.input entropy s
      match t.ending with
      | .ok _ => r.put t.output (.ok ())
      | .error problem => r.put t.output (.error (.transfer problem))

/-- Open the input.  A failed run leaves no output file that it can take away. -/
def decrypt (now : Situation) (settings : Settings) (ends : Ends)
    (choice : SecretChoice) : Outcome :=
  match prepare now ends choice with
  | .error problem => .unchanged now.files problem
  | .ok r =>
      let t := Transfer.decryptOnto now.outlet settings r.secret r.input
      match t.ending with
      | .ok _ => r.put t.output (.ok ())
      | .error problem => r.discard now t.output problem

/-- Read the configuration and do what is asked for. -/
def perform (now : Situation) (path : String) (action : Action)
    (entropy : Entropy ρ) (s : ρ) : Outcome :=
  match Settings.load now.files path with
  | .error problem => .unchanged now.files (.settings path problem)
  | .ok settings =>
      match action with
      | .keygen suite output =>
          keygen now (suite.getD settings.suite) output entropy s
      | .encrypt ends choice => encrypt now settings ends choice entropy s
      | .decrypt ends choice => decrypt now settings ends choice
      | .showSettings => .shown now.files (settings.describe now.files path)

/-- The version of the program. -/
def version : String := "sealwire 0.5.0\n"

/-- How the program is called. -/
def usage : String :=
  "Usage: sealwire [-c FILE] COMMAND\n\n" ++
    "  keygen  [-s SUITE] [-o FILE]\n" ++
    "  encrypt [-i FILE] [-o FILE] (-k FILE | --password)\n" ++
    "  decrypt [-i FILE] [-o FILE] (-k FILE | --password)\n" ++
    "  config show\n"

/-- Answer a request. -/
def run (now : Situation) (request : Request) (entropy : Entropy ρ) (s : ρ) :
    Outcome :=
  match request with
  | .help => .shown now.files usage
  | .version => .shown now.files version
  | .perform path action => perform now path action entropy s

end Command

end SealedStream

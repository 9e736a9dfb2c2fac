import SealedStream.Suite

/-!
# Commands

What a command line can ask for.  Paths are kept as the user has written them,
because messages repeat them.
-/

namespace SealedStream

/-- Where the secret of a transfer is to come from. -/
inductive SecretChoice
  | keyFile (path : String)
  | password
  deriving DecidableEq, Repr

/-- Where a transfer reads and writes: files, or else the standard streams. -/
structure Ends where
  input : Option String
  output : Option String
  deriving DecidableEq, Repr

/-- What is to be done. -/
inductive Action
  | keygen (suite : Option Suite) (output : Option String)
  | encrypt (ends : Ends) (secret : SecretChoice)
  | decrypt (ends : Ends) (secret : SecretChoice)
  | showSettings
  deriving DecidableEq, Repr

/-- The paths of all files that an action may read or write. -/
def Action.paths : Action → List String
  | .keygen _ output => output.toList
  | .encrypt ends secret | .decrypt ends secret =>
      ends.input.toList ++ ends.output.toList ++
        match secret with
        | .keyFile path => [path]
        | .password => []
  | .showSettings => []

/-- Does an action read standard input? -/
def Action.readsInput : Action → Bool
  | .encrypt ends _ | .decrypt ends _ => ends.input.isNone
  | .keygen .. | .showSettings => false

/-- Does an action work with a password? -/
def Action.needsPassword : Action → Bool
  | .encrypt _ secret | .decrypt _ secret => secret = .password
  | .keygen .. | .showSettings => false

/-- What a command line asks for. -/
inductive Request
  | perform (settingsPath : String) (action : Action)
  | help
  | version
  deriving DecidableEq, Repr

/-- The variables of the environment with their values. -/
abbrev Environment := List (String × String)

namespace Environment

/-- The name of the variable that holds the path of the configuration file. -/
def settingsPath : String := "SEALWIRE_CONFIG"

/-- The name of the variable that holds the password. -/
def password : String := "SEALWIRE_PASSWORD"

end Environment

end SealedStream

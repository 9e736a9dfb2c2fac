import SealedStream.Command
import SealedStream.Command.Options

/-!
# Command lines

A command line is read as a whole before anything is done.  It begins with the
option for the configuration file, then names a command, and goes on with the
options of that command.
-/

namespace SealedStream

namespace Request

/-! ## Options -/

/-- The configuration file. -/
def config : Flag := ⟨"config", some 'c', true⟩

/-- The suite of a new key. -/
def suite : Flag := ⟨"suite", some 's', true⟩

/-- The input of a transfer. -/
def input : Flag := ⟨"input", some 'i', true⟩

/-- The file to be written. -/
def output : Flag := ⟨"output", some 'o', true⟩

/-- The key file of a transfer. -/
def keyFile : Flag := ⟨"key-file", some 'k', true⟩

/-- Asks for a password in place of a key file. -/
def password : Flag := ⟨"password", none, false⟩

/-- Can the value of an option be used?  No file has an empty name. -/
def isUsable : Flag × Option String → Bool
  | (f, some v) =>
      if f = suite then (Suite.ofNameAnyCase? v.toList).isSome else v ≠ ""
  | (_, none) => true

/-- Is every option given once, and with a value that can be used? -/
def isSound (found : Found) : Bool :=
  found.distinct && found.given.all isUsable

/-! ## Commands -/

/-- What a command with its options asks for. -/
inductive Wish
  | help
  | action (a : Action)
  deriving DecidableEq, Repr

/-- Is nothing left but, at most, the mark that ends the options? -/
def isOver (rest : List String) : Bool :=
  rest = [] || rest = ["--"]

/-- Read the options of a command that takes no words, and make of them what
the command asks for. -/
def command (flags : List Flag) (args : List String)
    (action : Found → Option Action) : Option Wish :=
  match Flag.scan (Flag.help :: flags) [] args with
  | none => none
  | some found =>
      if !isSound found then none
      else if found.urgent.isSome then some .help
      else if isOver found.rest then (action found).map .action
      else none

/-- Make a key. -/
def keygen (found : Found) : Option Action :=
  let named := (found.value? suite).bind fun v => Suite.ofNameAnyCase? v.toList
  some (.keygen named (found.value? output))

/-- Seal or open.  The secret is given in one way and no more. -/
def transfer (action : Ends → SecretChoice → Action) (found : Found) :
    Option Action :=
  let ends : Ends := ⟨found.value? input, found.value? output⟩
  match found.value? keyFile, found.has password with
  | some path, false => some (action ends (.keyFile path))
  | none, true => some (action ends .password)
  | _, _ => none

/-- The names of the commands. -/
def names : List String :=
  ["keygen", "encrypt", "decrypt", "config", "help"]

/-- The names of the commands about the configuration. -/
def configNames : List String := ["show", "help"]

/-- Do these words name something that help can be asked about? -/
def isTopic : List String → Bool
  | [] => true
  | [name] => name ∈ names
  | ["config", name] => name ∈ configNames
  | _ => false

/-- What follows the name of the command about the configuration. -/
def configWish (args : List String) : Option Wish :=
  match Flag.scan [Flag.help] [] args with
  | none => none
  | some found =>
      match found.urgent, found.rest with
      | some _, _ => some .help
      | none, "show" :: more => command [] more fun _ => some .showSettings
      | none, "help" :: topic =>
          if isTopic ("config" :: topic) then some .help else none
      | none, _ => none

/-- What a command with its arguments asks for. -/
def wish (name : String) (args : List String) : Option Wish :=
  let transferFlags := [input, output, keyFile, password]
  match name with
  | "keygen" => command [suite, output] args keygen
  | "encrypt" => command transferFlags args (transfer .encrypt)
  | "decrypt" => command transferFlags args (transfer .decrypt)
  | "config" => configWish args
  | "help" => if isTopic args then some .help else none
  | _ => none

/-- The path of the configuration file where nothing else is asked for. -/
def standardPath : String := "sealwire.toml"

/-- The path of the configuration file: that of the option, or of the
environment, or the standard one. -/
def settingsPath? (found : Found) (environment : Environment) : Option String :=
  match found.value? config, environment.lookup Environment.settingsPath with
  | some path, _ => some path
  | none, some path => if path = "" then none else some path
  | none, none => some standardPath

/-- What a command line asks for; `none` if it is not one. -/
def ofArguments? (environment : Environment) (args : List String) :
    Option Request :=
  match Flag.scan [Flag.help, Flag.version, config] [] args with
  | none => none
  | some found =>
      match found.urgent, found.rest with
      | some f, _ =>
          if isSound found then
            some (if f = Flag.help then .help else .version)
          else none
      | none, [] => none
      | none, name :: more =>
          match wish name more with
          | none => none
          | some .help => some .help
          | some (.action a) =>
              if isSound found then
                (settingsPath? found environment).map fun path => .perform path a
              else none

end Request

end SealedStream

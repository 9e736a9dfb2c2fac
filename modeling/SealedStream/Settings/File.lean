import SealedStream.Files
import SealedStream.Settings

/-!
# Configuration files

Settings come from a file, which need not be there.  A file that is there has
to be readable, well-formed, and sound as to the layout of streams.
-/

namespace SealedStream

namespace Settings

/-- Why no settings can be had from a file. -/
inductive Problem
  | unreadable (error : IoError)
  | malformed
  | unsound (failure : Failure)
  deriving DecidableEq, Repr

/-- What a user is told, the most general statement first. -/
def Problem.chain (path : String) : Problem → List String
  | .unreadable error => ["reading config: " ++ path, error.message]
  | .malformed => ["parsing config: " ++ path]
  | .unsound failure => ["validating config: " ++ path, failure.message]

/-- The settings that a text describes. -/
def ofText (text : String) : Except Problem Settings :=
  match (Toml.parse text).bind ofToml? with
  | none => .error .malformed
  | some s =>
      match s.layout.check with
      | .ok () => .ok s
      | .error failure => .error (.unsound failure)

/-- The settings of a configuration file, and the standard ones if there is no
such file. -/
def load (fs : Files) (path : String) : Except Problem Settings :=
  if fs.has path then
    match fs.readText path with
    | .error error => .error (.unreadable error)
    | .ok text => ofText text
  else .ok standard

/-- The settings in use, with a line that says where they are from. -/
def describe (s : Settings) (fs : Files) (path : String) : String :=
  (if fs.has path then "# Configuration from: " ++ path
    else "# Configuration: defaults (no file at " ++ path ++ ")") ++
    "\n\n" ++ s.toToml

end Settings

end SealedStream

import SealedStream.Base64
import SealedStream.Key
import SealedStream.Text.Blank

/-!
# Key files

A key file holds one line: the name of a suite, a colon, and the bytes of a
key of that suite to base 64.  Blanks around it do not matter, nor does the
letter case of the name.
-/

namespace SealedStream

namespace Key

/-- Why a text is not that of a key. -/
inductive TextProblem
  | noColon
  | unknownSuite (name : List Char)
  | notBase64
  | unusable (failure : Failure)
  deriving DecidableEq, Repr

/-- The text shown to a user. -/
def TextProblem.message : TextProblem → String
  | .noColon => "key file must look like <suite>:<base64>"
  | .unknownSuite name => Suite.unknownMessage name
  | .notBase64 => "key file is not valid base64"
  | .unusable failure => failure.message

/-- The text of a key, without the line break that ends a key file. -/
def toText (k : Key) : List Char :=
  k.suite.name.toList ++ ':' :: Base64.encode k.bytes

/-- What stands before and after the first colon. -/
def splitAtColon (s : List Char) : Option (List Char × List Char) :=
  match s.dropWhile (· != ':') with
  | ':' :: after => some (s.takeWhile (· != ':'), after)
  | _ => none

/-- The key that a text gives. -/
def ofText (s : List Char) : Except TextProblem Key :=
  match splitAtColon (Text.trim s) with
  | none => .error .noColon
  | some (name, digits) =>
      match Suite.ofNameAnyCase? name with
      | none => .error (.unknownSuite name)
      | some suite =>
          match Base64.decode digits with
          | none => .error .notBase64
          | some bs =>
              match ofBytes suite bs with
              | .ok k => .ok k
              | .error failure => .error (.unusable failure)

end Key

end SealedStream

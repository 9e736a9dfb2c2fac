import SealedStream.Hash.Argon2id
import SealedStream.Key

/-!
# Keys from passwords

A password and a salt make the key of a suite.  The salt is no secret and is
stored with what the key seals.
-/

namespace SealedStream

namespace Password

/-- Bytes of a salt. -/
def saltSize : Nat := 16

/-- The cost of a password hash where nothing else is asked for. -/
def standardCost : Argon2id.Cost :=
  ⟨65536, 3, 4⟩

/-- The key that a password and a salt make. -/
def deriveKey (password : String) (salt : Bytes) (cost : Argon2id.Cost)
    (suite : Suite) : Except Failure Key :=
  match cost.problem? with
  | some problem =>
      .error (.invalidConfig s!"invalid Argon2id params: {problem}")
  | none =>
      Key.ofBytes suite
        (Argon2id.hash cost suite.keySize password.toUTF8.toList salt)

end Password

end SealedStream

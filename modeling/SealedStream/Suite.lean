import SealedStream.Text.Quoted

/-!
# Cipher suites and nonce modes

The AEAD algorithms on offer with their sizes, and the two ways of giving
every chunk a nonce.  Names are matched without regard to ASCII case where a
user types them, and exactly in a configuration file.
-/

namespace SealedStream

/-- The AEAD algorithm of a key. -/
inductive Suite
  | chacha20Poly1305
  | xchacha20Poly1305
  | aes128Gcm
  | aes256Gcm
  deriving DecidableEq, Repr

namespace Suite

/-- Every suite, in the order in which they are listed to a user. -/
def all : List Suite :=
  [.chacha20Poly1305, .xchacha20Poly1305, .aes128Gcm, .aes256Gcm]

/-- The name of a suite in key files, configurations and listings. -/
def name : Suite → String
  | .chacha20Poly1305 => "chacha20-poly1305"
  | .xchacha20Poly1305 => "xchacha20-poly1305"
  | .aes128Gcm => "aes128-gcm"
  | .aes256Gcm => "aes256-gcm"

/-- The name of a suite in the description of a key. -/
def label : Suite → String
  | .chacha20Poly1305 => "ChaCha20Poly1305"
  | .xchacha20Poly1305 => "XChaCha20Poly1305"
  | .aes128Gcm => "Aes128Gcm"
  | .aes256Gcm => "Aes256Gcm"

/-- Bytes of a key. -/
def keySize : Suite → Nat
  | .aes128Gcm => 16
  | _ => 32

/-- Bytes of a nonce. -/
def nonceSize : Suite → Nat
  | .xchacha20Poly1305 => 24
  | _ => 12

/-- Bytes of an authentication tag. -/
def tagSize (_ : Suite) : Nat := 16

/-- The suite with exactly this name. -/
def ofName? (s : String) : Option Suite :=
  all.find? fun suite => suite.name == s

/-- ASCII letters in lower case, any other character as it is. -/
def lowerAscii (s : List Char) : List Char :=
  s.map Char.toLower

/-- The suite with this name in any ASCII letter case. -/
def ofNameAnyCase? (s : List Char) : Option Suite :=
  all.find? fun suite => suite.name.toList == lowerAscii s

/-- What is said of a text that names no suite. -/
def unknownMessage (s : List Char) : String :=
  "unknown cipher suite " ++ Text.quoted (String.ofList s) ++
    " (expected one of " ++ String.intercalate ", " (all.map name) ++ ")"

end Suite

/-- How chunks come by their nonces. -/
inductive NonceMode
  | random
  | counter
  deriving DecidableEq, Repr

namespace NonceMode

/-- The name of a mode in a configuration. -/
def name : NonceMode → String
  | .random => "random"
  | .counter => "counter"

/-- The mode that a configuration names. -/
def ofName? (s : String) : Option NonceMode :=
  [random, counter].find? fun m => m.name == s

end NonceMode

end SealedStream

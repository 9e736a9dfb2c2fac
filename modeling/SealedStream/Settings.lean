import SealedStream.Layout
import SealedStream.Password
import SealedStream.Toml.Document
import SealedStream.Toml.Quoted
import SealedStream.Toml.Record

/-!
# Settings

What a user can set in a configuration file: the layout of streams, the suite
of new keys, the cost of password hashes, and the log.  Every setting has a
standard value, and a file gives only those that differ.

`Settings.ofToml?` reads a document and does not judge the values;
`Layout.check` does.  `Settings.toToml` writes every setting.
-/

namespace SealedStream

/-- How lines of the log are written. -/
inductive LogStyle
  | text
  | json
  deriving DecidableEq, Repr

namespace LogStyle

/-- The name of a style in a configuration. -/
def name : LogStyle → String
  | .text => "text"
  | .json => "json"

/-- The style that a configuration names. -/
def ofName? (s : String) : Option LogStyle :=
  [text, json].find? fun style => style.name == s

end LogStyle

/-- Everything that can be set. -/
structure Settings where
  layout : Layout
  /-- The suite of generated keys and of keys made from passwords. -/
  suite : Suite
  /-- The cost of making a key from a password. -/
  cost : Argon2id.Cost
  logLevel : String
  logStyle : LogStyle
  deriving DecidableEq, Repr

namespace Settings

/-- The settings where nothing else is asked for. -/
def standard : Settings where
  layout := .standard
  suite := .xchacha20Poly1305
  cost := Password.standardCost
  logLevel := "info"
  logStyle := .text

/-! ## Reading -/

/-- The integers of the section on streams are below this bound, so that they
can be written again. -/
def integerBound : Nat := 0x8000000000000000

/-- The layout that a record describes. -/
def layoutOf? (r : Toml.Record) : Option Layout := do
  let d := Layout.standard
  let size := Toml.Value.below? integerBound
  let form := Toml.Value.choice? IntForm.ofName?
  let nonceMode ←
    r.get 0 "nonce_mode" d.nonceMode (Toml.Value.choice? NonceMode.ofName?)
  let lengthPrefix ← r.get 1 "length_prefix" d.lengthPrefix Toml.Value.truth?
  let lengthForm ← r.get 2 "length_encoding" d.lengthForm form
  let chunkCounter ← r.get 3 "chunk_counter" d.chunkCounter Toml.Value.truth?
  let counterForm ← r.get 4 "counter_encoding" d.counterForm form
  let bufferSize ← r.get 5 "buffer_size" d.bufferSize size
  let maxChunkSize ← r.get 6 "max_chunk_size" d.maxChunkSize size
  return { nonceMode, lengthPrefix, lengthForm, chunkCounter, counterForm,
           bufferSize, maxChunkSize }

/-- A number of 32 bits. -/
def word? (v : Toml.Value) : Option UInt32 :=
  (v.below? 0x100000000).map UInt32.ofNat

/-- The cost that a record describes. -/
def costOf? (r : Toml.Record) : Option Argon2id.Cost := do
  let d := Password.standardCost
  let memory ← r.get 0 "mem_cost_kib" d.memory word?
  let passes ← r.get 1 "time_cost" d.passes word?
  let lanes ← r.get 2 "parallelism" d.lanes word?
  return ⟨memory, passes, lanes⟩

/-- The suite that a record describes. -/
def suiteOf? (r : Toml.Record) : Option Suite :=
  r.get 0 "suite" standard.suite (Toml.Value.choice? Suite.ofName?)

/-- The level and style of the log that a record describes. -/
def logOf? (r : Toml.Record) : Option (String × LogStyle) := do
  let level ← r.get 0 "level" standard.logLevel Toml.Value.text?
  let style ←
    r.get 1 "format" standard.logStyle (Toml.Value.choice? LogStyle.ofName?)
  return (level, style)

/-- Read a section, which is a record of its own. -/
def section? {α : Type} (read : Toml.Record → Option α) (v : Toml.Value) :
    Option α :=
  v.record?.bind read

/-- The settings that a document describes. -/
def ofToml? (document : Toml.Entries) : Option Settings := do
  let d := standard
  let r := Toml.Record.named document
  let layout ← r.get 0 "stream" d.layout (section? layoutOf?)
  let suite ← r.get 1 "cipher" d.suite (section? suiteOf?)
  let cost ← r.get 2 "kdf" d.cost (section? costOf?)
  let (logLevel, logStyle) ←
    r.get 3 "log" (d.logLevel, d.logStyle) (section? logOf?)
  return { layout, suite, cost, logLevel, logStyle }

/-! ## Writing -/

/-- A value as it is written after the name of a setting. -/
inductive Written
  | text (s : String)
  | number (n : Nat)
  | truth (b : Bool)

/-- The notation of a value. -/
def Written.toToml : Written → String
  | .text s => Toml.writeString s
  | .number n => toString n
  | .truth true => "true"
  | .truth false => "false"

/-- Every setting with its name, section by section. -/
def sections (s : Settings) : List (String × List (String × Written)) :=
  [("stream",
      [("nonce_mode", .text s.layout.nonceMode.name),
       ("length_prefix", .truth s.layout.lengthPrefix),
       ("length_encoding", .text s.layout.lengthForm.name),
       ("chunk_counter", .truth s.layout.chunkCounter),
       ("counter_encoding", .text s.layout.counterForm.name),
       ("buffer_size", .number s.layout.bufferSize),
       ("max_chunk_size", .number s.layout.maxChunkSize)]),
   ("cipher", [("suite", .text s.suite.name)]),
   ("kdf",
      [("mem_cost_kib", .number s.cost.memory.toNat),
       ("time_cost", .number s.cost.passes.toNat),
       ("parallelism", .number s.cost.lanes.toNat)]),
   ("log",
      [("level", .text s.logLevel),
       ("format", .text s.logStyle.name)])]

/-- A section as it is written. -/
def sectionText (name : String) (entries : List (String × Written)) : String :=
  entries.foldl (fun text (key, v) => text ++ key ++ " = " ++ v.toToml ++ "\n")
    ("[" ++ name ++ "]\n")

/-- The document that sets everything, with an empty line between sections. -/
def toToml (s : Settings) : String :=
  String.intercalate "\n" <|
    s.sections.map fun (name, entries) => sectionText name entries

end Settings

end SealedStream

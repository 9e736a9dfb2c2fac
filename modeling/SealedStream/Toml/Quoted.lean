import SealedStream.Toml.Value

/-!
# TOML strings

The notation of a string is the first of four that shows it without escapes:
quotation marks, apostrophes, triple quotation marks, triple apostrophes.  If
none does, it is written with escapes in quotation marks, tripled if it has
line breaks.  A tabulator is always written as an escape between quotation
marks, but does not count against that notation.
-/

namespace SealedStream

namespace Toml

/-- A control character that only an escape can show. -/
def needsEscape (c : Char) : Bool :=
  (c.toNat < 0x20 && c != '\t' && c != '\n') || c.toNat = 0x7f

/-- The longest run of a character, given the current one and the longest so
far. -/
def longestRunFrom (m : Char) : (run best : Nat) → List Char → Nat
  | _, best, [] => best
  | run, best, c :: r =>
      if c = m then longestRunFrom m (run + 1) (max best (run + 1)) r
      else longestRunFrom m 0 best r

/-- The longest run of a character in a text. -/
def longestRun (m : Char) (s : List Char) : Nat :=
  longestRunFrom m 0 0 s

/-- The ways of writing a string. -/
inductive Quoting
  | basic
  | literal
  | basicLines
  | literalLines
  deriving DecidableEq, Repr

/-- The notation in which a string is written. -/
def Quoting.choose (s : List Char) : Quoting :=
  let controls := s.any needsEscape
  let backslash := s.contains '\\'
  let breaks := s.contains '\n'
  if !controls && !backslash && !breaks && longestRun '"' s = 0 then .basic
  else if !controls && !breaks && longestRun '\'' s = 0 then .literal
  else if !controls && !backslash && longestRun '"' s ≤ 2 then .basicLines
  else if !controls && longestRun '\'' s ≤ 2 then .literalLines
  else if breaks then .basicLines
  else .basic

/-- Four digits to base sixteen. -/
def hex4 (n : Nat) : List Char :=
  let ds := (Nat.toDigits 16 n).map Char.toUpper
  List.replicate (4 - ds.length) '0' ++ ds

/-- Text between quotation marks.  A quotation mark is escaped when `allowed`
of them have gone before it in a row, and a line break where it may not stand;
`run` is the number of quotation marks just written. -/
def escapeFrom (allowed : Nat) (breaks : Bool) : (run : Nat) → List Char → List Char
  | _, [] => []
  | run, c :: r =>
      if c = '"' then
        if allowed ≤ run then '\\' :: '"' :: escapeFrom allowed breaks 0 r
        else '"' :: escapeFrom allowed breaks (run + 1) r
      else
        let written :=
          if c = '\x08' then ['\\', 'b']
          else if c = '\t' then ['\\', 't']
          else if c = '\n' then if breaks then ['\n'] else ['\\', 'n']
          else if c = '\x0c' then ['\\', 'f']
          else if c = '\r' then ['\\', 'r']
          else if c = '\\' then ['\\', '\\']
          else if needsEscape c then '\\' :: 'u' :: hex4 c.toNat
          else [c]
        written ++ escapeFrom allowed breaks 0 r

/-- A string as it is written in a document. -/
def writeString (text : String) : String :=
  let s := text.toList
  let lead := if s.contains '\n' then ['\n'] else []
  let triple (m : Char) : List Char := [m, m, m]
  String.ofList <|
    match Quoting.choose s with
    | .basic => '"' :: escapeFrom 0 false 0 s ++ ['"']
    | .literal => '\'' :: s ++ ['\'']
    | .basicLines => triple '"' ++ lead ++ escapeFrom 2 true 0 s ++ triple '"'
    | .literalLines => triple '\'' ++ lead ++ s ++ triple '\''

end Toml

end SealedStream

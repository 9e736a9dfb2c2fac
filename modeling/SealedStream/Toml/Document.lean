import SealedStream.Toml.Scalar

/-!
# TOML documents

A document is a list of lines: headers that open tables, and keys with their
values for the table that is open.  `Draft` is a document being read.  The open
table is kept apart and put in its place when the next header comes.

A document is refused as a whole if any part of it is malformed, if a key is
given twice, or if a table is opened twice.
-/

namespace SealedStream

namespace Toml

/-- Arrays and braces may be nested this deep, and keys have at most this many
parts. -/
def depthLimit : Nat := 79

/-! ## Tables -/

/-- Replace the value of a key, or add the key at the end. -/
def putEntry (es : Entries) (k : String) (v : Value) : Entries :=
  if es.any fun e => e.1 == k then
    es.map fun e => if e.1 == k then (k, v) else e
  else es ++ [(k, v)]

/-- Change the table at the end of a path, opening tables that are missing on
the way.  Dotted keys may not pass through a table that has a header, and
nothing passes through a table in braces or through any other value.  Of a
list of tables the path takes the last. -/
def alongPath (dotted : Bool) (change : Origin → Entries → Option Entries) :
    List String → Origin → Entries → Option Entries
  | [], origin, es => change origin es
  | k :: ks, _, es =>
      match es.lookup k with
      | none =>
          let origin := if dotted then Origin.dotted else .passage
          (alongPath dotted change ks origin []).map fun inner =>
            es ++ [(k, .table origin inner)]
      | some (.table .inline _) => none
      | some (.table origin inner) =>
          if dotted && origin = .header then none
          else
            (alongPath dotted change ks origin inner).map fun inner' =>
              putEntry es k (.table origin inner')
      | some (.tables all) =>
          match all.getLast? with
          | none => none
          | some inner =>
              (alongPath dotted change ks .header inner).map fun inner' =>
                putEntry es k (.tables (all.dropLast ++ [inner']))
      | some _ => none

/-- Add a new key to a table. -/
def addNew (es : Entries) (k : String) (v : Value) : Option Entries :=
  if es.any fun e => e.1 == k then none else some (es ++ [(k, v)])

/-- Add the value of a key, which may be dotted.  The table that a dotted key
ends in has to come from dotted keys. -/
def addKey (es : Entries) (path : List String) (v : Value) : Option Entries :=
  match path.getLast? with
  | none => none
  | some k =>
      let way := path.dropLast
      let change (origin : Origin) (es : Entries) : Option Entries :=
        if !way.isEmpty && origin != .dotted then none else addNew es k v
      alongPath true change way .header es

/-! ## Keys and values -/

/-- A character of a key without quotes. -/
def isBare (c : Char) : Bool :=
  c.isAlphanum || c = '-' || c = '_'

/-- One part of a key. -/
def keyPart : List Char → Taken String
  | '"' :: r => basicFrom (r.length + 1) [] r
  | '\'' :: r => literal r
  | s =>
      let name := s.takeWhile isBare
      if name.isEmpty then none
      else some (String.ofList name, s.drop name.length)

/-- The parts of a key, blanks around each of them being skipped. -/
def keyFrom : (k : Nat) → List Char → Taken (List String)
  | 0, _ => none
  | k + 1, s =>
      match keyPart (skipSpaces s) with
      | none => none
      | some (name, r) =>
          match skipSpaces r with
          | '.' :: t => (keyFrom k t).map fun (names, t') => (name :: names, t')
          | t => some ([name], t)

/-- A key with at most `depthLimit` parts, and the blanks after it. -/
def key (s : List Char) : Taken (List String) :=
  keyFrom depthLimit s

/-- The text after a comment, if one stands at its front. -/
def skipComment : List Char → List Char
  | '#' :: r => r.dropWhile isText
  | s => s

/-- The text after blanks, line breaks and comments that end their line. -/
def skipBlankLines : (k : Nat) → List Char → List Char
  | 0, s => s
  | k + 1, s =>
      let s' := skipSpaces s
      match newline? (skipComment s') with
      | some r => skipBlankLines k r
      | none => s'

/-- The items of an array up to its closing bracket. -/
def arrayItems (item : List Char → Taken Value) :
    (k : Nat) → List Char → Taken (List Value)
  | 0, _ => none
  | k + 1, s =>
      match skipBlankLines (s.length + 1) s with
      | ']' :: r => some ([], r)
      | s' =>
          match item s' with
          | none => none
          | some (v, r) =>
              match skipBlankLines (r.length + 1) r with
              | ',' :: t =>
                  (arrayItems item k t).map fun (vs, t') => (v :: vs, t')
              | ']' :: t => some ([v], t)
              | _ => none

/-- A key, the sign of equality and a value. -/
def keyValue (item : List Char → Taken Value) (s : List Char) :
    Taken (List String × Value) :=
  match key s with
  | some (path, '=' :: r) =>
      (item (skipSpaces r)).map fun (v, t) => ((path, v), t)
  | _ => none

/-- The entries of a table in braces, up to the closing brace. -/
def braceEntries (item : List Char → Taken Value) :
    (k : Nat) → Entries → List Char → Taken Entries
  | 0, _, _ => none
  | k + 1, es, s =>
      match keyValue item s with
      | none => none
      | some ((path, v), r) =>
          match addKey es path v with
          | none => none
          | some es' =>
              match skipSpaces r with
              | ',' :: t => braceEntries item k es' t
              | '\x7d' :: t => some (es', t)
              | _ => none

/-- A value; `depth` more levels of brackets and braces may be opened. -/
def value : (depth : Nat) → List Char → Taken Value
  | 0, s => scalar s
  | depth + 1, s =>
      match s with
      | '[' :: r =>
          (arrayItems (value depth) (r.length + 1) r).map fun (vs, t) =>
            (.array vs, t)
      | '\x7b' :: r =>
          match skipSpaces r with
          | '\x7d' :: t => some (.table .inline [], t)
          | r' =>
              (braceEntries (value depth) (r'.length + 1) [] r').map
                fun (es, t) => (.table .inline es, t)
      | _ => scalar s

/-! ## Lines -/

/-- The text after the end of a line, before which blanks and a comment may
stand. -/
def endOfLine (s : List Char) : Option (List Char) :=
  match skipComment (skipSpaces s) with
  | [] => some []
  | s' => newline? s'

/-- A document being read: the finished tables and the one that is open. -/
structure Draft where
  finished : Entries
  /-- The header of the open table; empty before the first one. -/
  path : List String
  /-- The open table is one of a list of tables. -/
  listed : Bool
  entries : Entries

/-- Nothing read yet. -/
def Draft.empty : Draft :=
  ⟨[], [], false, []⟩

/-- Add a table to a list of tables. -/
def addListed (k : String) (table : Entries) (es : Entries) : Option Entries :=
  match es.lookup k with
  | none => some (es ++ [(k, .tables [table])])
  | some (.tables all) => some (putEntry es k (.tables (all ++ [table])))
  | some _ => none

/-- Put the open table in its place. -/
def Draft.finish (d : Draft) : Option Entries :=
  match d.path.getLast? with
  | none => some d.entries
  | some k =>
      let change (_ : Origin) (es : Entries) : Option Entries :=
        if d.listed then addListed k d.entries es
        else some (putEntry es k (.table .header d.entries))
      alongPath false change d.path.dropLast .header d.finished

/-- The table that a header opens: what the key already holds if only a way
led through it, or nothing. -/
def reopened (k : String) (es : Entries) : Option Entries :=
  match es.lookup k with
  | none => some []
  | some (.table .passage inner) => some inner
  | some _ => none

/-- The table at the end of a path, if there is one. -/
def lookAlong : List String → Entries → Option Entries
  | [], es => some es
  | k :: ks, es =>
      match es.lookup k with
      | none => some []
      | some (.table .inline _) => none
      | some (.table _ inner) => lookAlong ks inner
      | some (.tables all) =>
          match all.getLast? with
          | some inner => lookAlong ks inner
          | none => none
      | some _ => none

/-- Open the table of a header. -/
def Draft.openTable (d : Draft) (path : List String) : Option Draft := do
  let finished ← d.finish
  let k ← path.getLast?
  let parent ← lookAlong path.dropLast finished
  let entries ← reopened k parent
  return ⟨finished, path, false, entries⟩

/-- Open a new table of a list of tables. -/
def Draft.openListed (d : Draft) (path : List String) : Option Draft := do
  let finished ← d.finish
  let k ← path.getLast?
  let parent ← lookAlong path.dropLast finished
  let _ ← addListed k [] parent
  return ⟨finished, path, true, []⟩

/-- Read one header or one key with its value, up to the end of the line. -/
def line (d : Draft) (s : List Char) : Option (Draft × List Char) :=
  match s with
  | '[' :: '[' :: r => do
      let (path, t) ← key r
      let t ← after ']' t
      let t ← after ']' t
      let t ← endOfLine t
      let d ← d.openListed path
      return (d, t)
  | '[' :: r => do
      let (path, t) ← key r
      let t ← after ']' t
      let t ← endOfLine t
      let d ← d.openTable path
      return (d, t)
  | _ => do
      let ((path, v), t) ← keyValue (value depthLimit) s
      let t ← endOfLine t
      let entries ← addKey d.entries path v
      return ({ d with entries := entries }, t)

/-- Read the lines that are left. -/
def lines : (k : Nat) → Draft → List Char → Option Draft
  | 0, _, _ => none
  | k + 1, d, s =>
      match skipSpaces s with
      | [] => some d
      | s' =>
          match newline? (skipComment s') with
          | some r => lines k d r
          | none =>
              if (skipComment s').isEmpty then some d
              else
                match line d s' with
                | some (d', r) => lines k d' r
                | none => none

/-- The text after the mark of byte order that may stand in front of it. -/
def skipByteOrderMark : List Char → List Char
  | '\ufeff' :: r => r
  | s => s

/-- Read a document. -/
def parse (text : String) : Option Entries := do
  let s := skipByteOrderMark text.toList
  let d ← lines (s.length + 1) .empty s
  d.finish

end Toml

end SealedStream

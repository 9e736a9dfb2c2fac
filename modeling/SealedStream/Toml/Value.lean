/-!
# TOML values

A document is a table.  Tables remember how they came about, because the same
table may be opened once only: a table written in braces is closed, one opened
by a header may not be opened again or be extended by dotted keys, and one
that only stands on the way to another may still get a header of its own.
-/

namespace SealedStream

namespace Toml

/-- How a table came about. -/
inductive Origin
  /-- Written in braces. -/
  | inline
  /-- Opened by a header of its own. -/
  | header
  /-- On the way of a header to another table. -/
  | passage
  /-- On the way of a dotted key. -/
  | dotted
  deriving DecidableEq, Repr

/-- A value of a document.  Of floating-point numbers and of dates only the
text is kept. -/
inductive Value
  | string (text : String)
  | integer (value : Int)
  | float (text : String)
  | boolean (value : Bool)
  | dateTime (text : String)
  | array (items : List Value)
  | table (origin : Origin) (entries : List (String × Value))
  /-- The tables opened by doubly bracketed headers, latest last. -/
  | tables (all : List (List (String × Value)))
  deriving Repr

/-- What a table holds: keys with their values, each key once. -/
abbrev Entries := List (String × Value)

end Toml

end SealedStream

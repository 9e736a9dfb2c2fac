import SealedStream.Toml.Value

/-!
# Records in TOML

Readers for values of a known shape.  A record is usually written as a table,
whose keys name its fields; an array gives the fields by their position.  A
field that is missing takes a default, and what names no field is ignored.

A reader answers with nothing if the value has another shape or does not fit.
-/

namespace SealedStream

namespace Toml

/-- The fields of a record, by name or by position. -/
inductive Record
  | named (entries : Entries)
  | positional (items : List Value)

namespace Record

/-- The value of a field, if it is given. -/
def field? : Record → (position : Nat) → (name : String) → Option Value
  | .named entries, _, name => entries.lookup name
  | .positional items, position, _ => items[position]?

/-- Read a field, which has a default. -/
def get {α : Type} (r : Record) (position : Nat) (name : String) (default : α)
    (read : Value → Option α) : Option α :=
  match r.field? position name with
  | none => some default
  | some v => read v

end Record

namespace Value

/-- The record that a value stands for.  A date is a record without any of the
fields that are asked for. -/
def record? : Value → Option Record
  | .table _ entries => some (.named entries)
  | .array items => some (.positional items)
  | .tables all => some (.positional (all.map fun es => .table .header es))
  | .dateTime _ => some (.named [])
  | .string _ | .integer _ | .float _ | .boolean _ => none

/-- The text of a string. -/
def text? : Value → Option String
  | .string text => some text
  | _ => none

/-- A truth value. -/
def truth? : Value → Option Bool
  | .boolean b => some b
  | _ => none

/-- An integer from zero up to, but not including, a bound. -/
def below? (bound : Nat) : Value → Option Nat
  | .integer n => if 0 ≤ n ∧ n < bound then some n.toNat else none
  | _ => none

/-- A value that holds others, but none. -/
def isHollow : Value → Bool
  | .table _ entries => entries.isEmpty
  | .array items => items.isEmpty
  | .tables all => all.isEmpty
  | _ => false

/-- One of several named alternatives: its name, or a table with its name as
the only key and nothing under it. -/
def choice? {α : Type} (ofName? : String → Option α) : Value → Option α
  | .string name => ofName? name
  | .table _ [(name, v)] => if v.isHollow then ofName? name else none
  | _ => none

end Value

end Toml

end SealedStream

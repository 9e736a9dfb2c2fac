/-!
# Options

Options stand before the words of a command line.  An option is a name after
two hyphens or a letter after one; its value follows as the next argument,
after a sign of equality, or directly after the letter.  Two hyphens alone end
the options.

A value that is an argument of its own does not begin with a hyphen, unless it
is a hyphen and nothing else.
-/

namespace SealedStream

/-- An option of a command. -/
structure Flag where
  name : String
  letter : Option Char
  takesValue : Bool
  deriving DecidableEq, Repr

namespace Flag

/-- Asks for help. -/
def help : Flag := ⟨"help", some 'h', false⟩

/-- Asks for the version. -/
def version : Flag := ⟨"version", some 'V', false⟩

/-- These options are obeyed at once, whatever follows. -/
def isUrgent (f : Flag) : Bool :=
  f = help || f = version

end Flag

/-- What has been found at the front of a command line. -/
structure Found where
  /-- The options with their values, those without a value with none. -/
  given : List (Flag × Option String)
  /-- An urgent option that ended the search. -/
  urgent : Option Flag
  rest : List String
  deriving DecidableEq, Repr

namespace Found

/-- The value of an option, if it is given. -/
def value? (found : Found) (f : Flag) : Option String :=
  (found.given.lookup f).join

/-- Is the option given? -/
def has (found : Found) (f : Flag) : Bool :=
  found.given.any fun g => g.1 = f

/-- Is no option given twice? -/
def distinct (found : Found) : Bool :=
  (found.given.map Prod.fst).Nodup

end Found

namespace Flag

/-- One option as it is written: its flag and a value written together with
it. -/
structure Spelled where
  flag : Flag
  attached : Option String
  deriving DecidableEq, Repr

/-- The option that a text after two hyphens stands for. -/
def ofLong? (flags : List Flag) (s : List Char) : Option Spelled :=
  let name := s.takeWhile (· != '=')
  let attached :=
    match s.drop name.length with
    | '=' :: v => some (String.ofList v)
    | _ => none
  (flags.find? fun f => f.name.toList = name).map fun f => ⟨f, attached⟩

/-- The option that a text after one hyphen stands for.  Letters may follow
those of urgent options only, which are obeyed before they are read. -/
def ofShort? (flags : List Flag) : List Char → Option Spelled
  | [] => none
  | c :: r =>
      let attached :=
        match r with
        | [] => none
        | '=' :: v => some (String.ofList v)
        | v => some (String.ofList v)
      (flags.find? fun f => f.letter = some c).map fun f =>
        ⟨f, if f.takesValue then attached else none⟩

/-- The option that an argument begins, if it looks like one; the inner answer
is missing if there is no such option. -/
def ofArgument? (flags : List Flag) (arg : String) :
    Option (Option Spelled) :=
  match arg.toList with
  | '-' :: '-' :: [] => none
  | '-' :: '-' :: s => some (ofLong? flags s)
  | '-' :: c :: s => some (ofShort? flags (c :: s))
  | _ => none

/-- May the argument be the value of the option before it? -/
def isValue (arg : String) : Bool :=
  match arg.toList with
  | '-' :: _ :: _ => false
  | _ => true

/-- Take the options from the front of a command line. -/
def scan (flags : List Flag) : List (Flag × Option String) → List String →
    Option Found
  | given, [] => some ⟨given.reverse, none, []⟩
  | given, arg :: args =>
      match ofArgument? flags arg with
      | none => some ⟨given.reverse, none, arg :: args⟩
      | some none => none
      | some (some ⟨f, attached⟩) =>
          if f.takesValue then
            match attached, args with
            | some v, args => scan flags ((f, some v) :: given) args
            | none, v :: args =>
                if isValue v then scan flags ((f, some v) :: given) args
                else none
            | none, [] => none
          else if attached.isSome then none
          else if f.isUrgent then some ⟨given.reverse, some f, args⟩
          else scan flags ((f, none) :: given) args

end Flag

end SealedStream

import SealedStream.Toml.Value

/-!
# TOML scalars

Strings in their four notations, numbers, dates and truth values, each read
off the front of a text.  Every reader answers with what it has read and the
rest of the text, or with nothing if the text is malformed there.
-/

namespace SealedStream

namespace Toml

/-- Something read off the front of a text, and what follows it. -/
abbrev Taken (α : Type) := Option (α × List Char)

/-- A blank within a line. -/
def isSpace (c : Char) : Bool :=
  c = ' ' || c = '\t'

/-- The text after the blanks at its front. -/
def skipSpaces (s : List Char) : List Char :=
  s.dropWhile isSpace

/-- The text after the line break at its front. -/
def newline? : List Char → Option (List Char)
  | '\n' :: r => some r
  | '\r' :: '\n' :: r => some r
  | _ => none

/-- A character that may stand in comments and strings: no control but the
tabulator. -/
def isText (c : Char) : Bool :=
  c = '\t' || (' ' ≤ c && c ≤ '~') || '\x80' ≤ c

/-! ## Strings -/

/-- The value of a digit to base sixteen. -/
def hexValue? (c : Char) : Option Nat :=
  if '0' ≤ c ∧ c ≤ '9' then some (c.toNat - '0'.toNat)
  else if 'a' ≤ c ∧ c ≤ 'f' then some (c.toNat - 'a'.toNat + 10)
  else if 'A' ≤ c ∧ c ≤ 'F' then some (c.toNat - 'A'.toNat + 10)
  else none

/-- The number with the given digits to base sixteen. -/
def hexNumber? (ds : List Char) : Option Nat :=
  ds.foldlM (fun n c => (hexValue? c).map fun d => 16 * n + d) 0

/-- The character whose number is given by `k` digits to base sixteen. -/
def numbered (k : Nat) (s : List Char) : Taken Char :=
  let ds := s.take k
  if ds.length = k then
    match hexNumber? ds with
    | some n => if n.isValidChar then some (Char.ofNat n, s.drop k) else none
    | none => none
  else none

/-- The character that an escape stands for, the backslash being read. -/
def escaped : List Char → Taken Char
  | 'b' :: r => some ('\x08', r)
  | 't' :: r => some ('\t', r)
  | 'n' :: r => some ('\n', r)
  | 'f' :: r => some ('\x0c', r)
  | 'r' :: r => some ('\r', r)
  | '"' :: r => some ('"', r)
  | '\\' :: r => some ('\\', r)
  | 'u' :: r => numbered 4 r
  | 'U' :: r => numbered 8 r
  | _ => none

/-- The rest of a string in quotation marks; `acc` holds what has been read,
latest first. -/
def basicFrom : (k : Nat) → (acc : List Char) → List Char → Taken String
  | 0, _, _ => none
  | k + 1, acc, s =>
      match s with
      | [] => none
      | '"' :: r => some (String.ofList acc.reverse, r)
      | '\\' :: r =>
          match escaped r with
          | some (c, r') => basicFrom k (c :: acc) r'
          | none => none
      | c :: r => if isText c then basicFrom k (c :: acc) r else none

/-- The text after blanks and line breaks. -/
def skipLines : (k : Nat) → List Char → List Char
  | 0, s => s
  | k + 1, s =>
      let s' := skipSpaces s
      match newline? s' with
      | some r => skipLines k r
      | none => s'

/-- A string ends at three marks; up to two more of them belong to it. -/
def closing (mark : Char) (acc : List Char) (s : List Char) : Taken String :=
  let extra := min 2 (s.takeWhile (· == mark)).length
  some (String.ofList (acc.reverse ++ List.replicate extra mark), s.drop extra)

/-- The rest of a string in triple quotation marks.  A backslash at the end of
a line joins it with the next text. -/
def basicLinesFrom : (k : Nat) → (acc : List Char) → List Char → Taken String
  | 0, _, _ => none
  | k + 1, acc, s =>
      match s with
      | [] => none
      | '"' :: '"' :: '"' :: r => closing '"' acc r
      | '\\' :: r =>
          match newline? (skipSpaces r) with
          | some r' => basicLinesFrom k acc (skipLines (r'.length + 1) r')
          | none =>
              match escaped r with
              | some (c, r') => basicLinesFrom k (c :: acc) r'
              | none => none
      | c :: r =>
          match newline? s with
          | some r' => basicLinesFrom k ('\n' :: acc) r'
          | none => if isText c then basicLinesFrom k (c :: acc) r else none

/-- The rest of a string in triple apostrophes. -/
def literalLinesFrom : (k : Nat) → (acc : List Char) → List Char → Taken String
  | 0, _, _ => none
  | k + 1, acc, s =>
      match s with
      | [] => none
      | '\'' :: '\'' :: '\'' :: r => closing '\'' acc r
      | c :: r =>
          match newline? s with
          | some r' => literalLinesFrom k ('\n' :: acc) r'
          | none => if isText c then literalLinesFrom k (c :: acc) r else none

/-- The rest of a string in apostrophes. -/
def literal (s : List Char) : Taken String :=
  let text := s.takeWhile fun c => isText c && c != '\''
  match s.drop text.length with
  | '\'' :: r => some (String.ofList text, r)
  | _ => none

/-- The text after the line break that may follow an opening delimiter. -/
def skipFirstNewline (s : List Char) : List Char :=
  (newline? s).getD s

/-- A string in any notation. -/
def string : List Char → Taken String
  | '"' :: '"' :: '"' :: r => basicLinesFrom (r.length + 1) [] (skipFirstNewline r)
  | '"' :: r => basicFrom (r.length + 1) [] r
  | '\'' :: '\'' :: '\'' :: r =>
      literalLinesFrom (r.length + 1) [] (skipFirstNewline r)
  | '\'' :: r => literal r
  | _ => none

/-! ## Numbers -/

/-- Digits after the first one; single underscores may stand between digits. -/
def moreDigits (isDigit : Char → Bool) : List Char → Taken (List Char)
  | [] => some ([], [])
  | ['_'] => none
  | '_' :: c :: r =>
      if isDigit c then (moreDigits isDigit r).map fun (ds, t) => (c :: ds, t)
      else none
  | c :: r =>
      if isDigit c then (moreDigits isDigit r).map fun (ds, t) => (c :: ds, t)
      else some ([], c :: r)

/-- One digit or more, without the underscores between them. -/
def digits (isDigit : Char → Bool) : List Char → Taken (List Char)
  | c :: r =>
      if isDigit c then (moreDigits isDigit r).map fun (ds, t) => (c :: ds, t)
      else none
  | [] => none

/-- The number with the given digits to a base. -/
def numberOf (base : Nat) (ds : List Char) : Nat :=
  ds.foldl (fun n c => base * n + (hexValue? c).getD 0) 0

/-- The sign at the front of a text, if there is one. -/
def signed : List Char → Bool × List Char
  | '-' :: r => (true, r)
  | '+' :: r => (false, r)
  | s => (false, s)

/-- The digits of a decimal number without needless zeros in front. -/
def decimalDigits : List Char → Taken (List Char)
  | '0' :: r => some (['0'], r)
  | s => digits Char.isDigit s

/-- An integer of 64 bits. -/
def integerOf (negative : Bool) (n : Nat) : Option Value :=
  let bound := 0x8000000000000000
  if negative then if n ≤ bound then some (.integer (-n)) else none
  else if n < bound then some (.integer n) else none

/-- An integer to a base other than ten, its mark being read. -/
def basedInteger (base : Nat) (isDigit : Char → Bool) (s : List Char) :
    Taken Value :=
  match digits isDigit s with
  | some (ds, r) => (integerOf false (numberOf base ds)).map (·, r)
  | none => none

/-- The exponent of a number, if one follows. -/
def exponent : List Char → Taken (Option Int)
  | c :: r =>
      if c = 'e' ∨ c = 'E' then
        let (negative, r') := signed r
        match digits Char.isDigit r' with
        | some (ds, t) =>
            let n : Int := numberOf 10 ds
            some (some (if negative then -n else n), t)
        | none => none
      else some (none, c :: r)
  | [] => some (none, [])

/-- The fraction of a number, if one follows. -/
def fraction : List Char → Taken (Option (List Char))
  | '.' :: r => (digits Char.isDigit r).map fun (ds, t) => (some ds, t)
  | s => some (none, s)

/-- Half a unit above the largest finite double-precision number. -/
def doubleBound : Nat := 0x3fffffffffffff <<< 970

/-- Does `m * 10 ^ e` round to a double-precision number above all finite
ones? -/
def overflows (m : Nat) (e : Int) : Bool :=
  if m = 0 then false
  else if 310 ≤ e then true
  else if 0 ≤ e then doubleBound ≤ m * Nat.pow 10 e.toNat
  else if (Nat.toDigits 10 m).length ≤ (-e).toNat then false
  else doubleBound * Nat.pow 10 (-e).toNat ≤ m

/-- A decimal number: an integer, or a floating-point number that is not
infinite. -/
def decimal (s : List Char) : Taken Value :=
  let (negative, s') := signed s
  match decimalDigits s' with
  | none => none
  | some (ds, r) =>
      match fraction r with
      | none => none
      | some (fr, r') =>
          match exponent r' with
          | none => none
          | some (none, t) =>
              match fr with
              | none => (integerOf negative (numberOf 10 ds)).map (·, t)
              | some fs => float negative ds fs 0 s t
          | some (some e, t) => float negative ds (fr.getD []) e s t
where
  /-- A floating-point number, unless it is positive and too large. -/
  float (negative : Bool) (ds fs : List Char) (e : Int) (s t : List Char) :
      Taken Value :=
    if !negative && overflows (numberOf 10 (ds ++ fs)) (e - fs.length) then none
    else
      some (.float (String.ofList (s.take (s.length - t.length))), t)

/-- An infinity or an undefined number, after its sign. -/
def special (s : List Char) : Taken Value :=
  match (signed s).2 with
  | 'i' :: 'n' :: 'f' :: r => some (.float "inf", r)
  | 'n' :: 'a' :: 'n' :: r => some (.float "nan", r)
  | _ => none

/-! ## Dates and times -/

/-- A number of exactly `k` digits within bounds. -/
def fixedDigits (k low high : Nat) (s : List Char) : Taken Nat :=
  let ds := s.take k
  if ds.length = k ∧ ds.all Char.isDigit then
    let n := numberOf 10 ds
    if low ≤ n ∧ n ≤ high then some (n, s.drop k) else none
  else none

/-- The text after a given character. -/
def after (c : Char) : List Char → Option (List Char)
  | d :: r => if c = d then some r else none
  | [] => none

/-- Days of a month. -/
def daysIn (year month : Nat) : Nat :=
  if month = 2 then
    if year % 4 = 0 ∧ (year % 100 ≠ 0 ∨ year % 400 = 0) then 29 else 28
  else if month ∈ [4, 6, 9, 11] then 30
  else 31

/-- The text after a calendar date. -/
def skipDate (s : List Char) : Option (List Char) := do
  let (year, s) ← fixedDigits 4 0 9999 s
  let s ← after '-' s
  let (month, s) ← fixedDigits 2 1 12 s
  let s ← after '-' s
  let (_, s) ← fixedDigits 2 1 (daysIn year month) s
  return s

/-- The text after the fraction of a second, if one follows. -/
def skipSecondFraction : List Char → Option (List Char)
  | '.' :: r =>
      let rest := r.dropWhile Char.isDigit
      if rest.length < r.length then some rest else none
  | s => some s

/-- The text after a time of day. -/
def skipTime (s : List Char) : Option (List Char) := do
  let (_, s) ← fixedDigits 2 0 23 s
  let s ← after ':' s
  let (_, s) ← fixedDigits 2 0 59 s
  let s ← after ':' s
  let (_, s) ← fixedDigits 2 0 60 s
  skipSecondFraction s

/-- The text after an offset from universal time, if one follows. -/
def skipOffset : List Char → Option (List Char)
  | c :: r =>
      if c = 'Z' ∨ c = 'z' then some r
      else if c = '+' ∨ c = '-' then do
        let (_, r) ← fixedDigits 2 0 23 r
        let r ← after ':' r
        let (_, r) ← fixedDigits 2 0 59 r
        return r
      else some (c :: r)
  | [] => some []

/-- The text after the time that may follow a date. -/
def skipTimeOfDate (s : List Char) : Option (List Char) :=
  match s with
  | c :: r =>
      if c = 'T' ∨ c = 't' ∨ c = ' ' then
        match skipTime r with
        | some t => skipOffset t
        | none => some s
      else some s
  | [] => some []

/-- A date, a time or both. -/
def dateTime (s : List Char) : Taken Value :=
  let rest :=
    match skipDate s with
    | some t => skipTimeOfDate t
    | none => skipTime s
  rest.map fun t =>
    (.dateTime (String.ofList (s.take (s.length - t.length))), t)

/-! ## Any scalar -/

/-- The text after a given word. -/
def afterWord (w : String) (s : List Char) : Option (List Char) :=
  let n := w.toList.length
  if s.take n = w.toList then some (s.drop n) else none

/-- A number, a date or a time. -/
def number (s : List Char) : Taken Value :=
  match dateTime s with
  | some r => some r
  | none =>
      match s with
      | '0' :: 'x' :: r => basedInteger 16 (fun c => (hexValue? c).isSome) r
      | '0' :: 'o' :: r => basedInteger 8 (fun c => '0' ≤ c && c ≤ '7') r
      | '0' :: 'b' :: r => basedInteger 2 (fun c => c = '0' || c = '1') r
      | _ =>
          match special s with
          | some r => some r
          | none => decimal s

/-- A value that holds no others. -/
def scalar (s : List Char) : Taken Value :=
  match s with
  | [] => none
  | c :: _ =>
      if c = '"' ∨ c = '\'' then (string s).map fun (t, r) => (.string t, r)
      else if c = 't' then (afterWord "true" s).map (.boolean true, ·)
      else if c = 'f' then (afterWord "false" s).map (.boolean false, ·)
      else if c.isDigit ∨ c ∈ ['+', '-', 'i', 'n'] then number s
      else none

end Toml

end SealedStream

import SealedStream.Bytes

/-!
# Base 64

Three bytes are written as four digits.  One or two bytes at the end take two
or three digits and are filled up with signs of equality.  Reading accepts
only what writing produces: the filling has to be there, and the bits of the
last digit that belong to no byte have to be zero.
-/

namespace SealedStream

namespace Base64

/-- The digit of a number below sixty-four. -/
def digit (n : Nat) : Char :=
  if n < 26 then Char.ofNat ('A'.toNat + n)
  else if n < 52 then Char.ofNat ('a'.toNat + (n - 26))
  else if n < 62 then Char.ofNat ('0'.toNat + (n - 52))
  else if n = 62 then '+'
  else '/'

/-- The number of a digit. -/
def value? (c : Char) : Option Nat :=
  if 'A' ≤ c ∧ c ≤ 'Z' then some (c.toNat - 'A'.toNat)
  else if 'a' ≤ c ∧ c ≤ 'z' then some (c.toNat - 'a'.toNat + 26)
  else if '0' ≤ c ∧ c ≤ '9' then some (c.toNat - '0'.toNat + 52)
  else if c = '+' then some 62
  else if c = '/' then some 63
  else none

/-- The `k` lowest digits of a number, most significant first. -/
def digits : (k n : Nat) → List Char
  | 0, _ => []
  | k + 1, n => digits k (n / 64) ++ [digit (n % 64)]

/-- Write bytes. -/
def encode : Bytes → List Char
  | [] => []
  | [a] => digits 2 (16 * a.toNat) ++ ['=', '=']
  | [a, b] => digits 3 (4 * (256 * a.toNat + b.toNat)) ++ ['=']
  | a :: b :: c :: rest =>
      digits 4 (65536 * a.toNat + 256 * b.toNat + c.toNat) ++ encode rest

/-- The number that digits make up, if they are digits. -/
def number? (ds : List Char) : Option Nat :=
  ds.foldlM (fun n c => (value? c).map fun d => 64 * n + d) 0

/-- The bytes of a last group, whose digits carry `spare` bits too many. -/
def lastGroup (width spare : Nat) (ds : List Char) : Option Bytes :=
  match number? ds with
  | some n =>
      let whole := n >>> spare
      if whole <<< spare = n then some (Bytes.ofNatBE width whole) else none
  | none => none

/-- Read bytes. -/
def decode : List Char → Option Bytes
  | [] => some []
  | [a, b, '=', '='] => lastGroup 1 4 [a, b]
  | [a, b, c, '='] => lastGroup 2 2 [a, b, c]
  | a :: b :: c :: d :: rest =>
      match number? [a, b, c, d], decode rest with
      | some n, some more => some (Bytes.ofNatBE 3 n ++ more)
      | _, _ => none
  | _ => none

theorem value?_digit {n : Nat} (h : n < 64) : value? (digit n) = some n := by
  revert n
  decide

@[simp] theorem length_digits (k n : Nat) : (digits k n).length = k := by
  induction k generalizing n with
  | zero => rfl
  | succ k ih => simp [digits, ih]

end Base64

end SealedStream

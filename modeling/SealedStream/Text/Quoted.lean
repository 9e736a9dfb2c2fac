import SealedStream.Text.Combining
import SealedStream.Text.Unprintable

/-!
# Quoted text

A text in quotation marks, in which everything can be seen: quotation marks
and backslashes are preceded by a backslash, the common controls have letters
of their own, and other characters that are unprintable or combining are given
by their number.
-/

namespace SealedStream

namespace Text

/-- The digits of a number to base sixteen, without leading zeros. -/
def hexDigits (n : Nat) : List Char :=
  Nat.toDigits 16 n

/-- A character inside quotation marks. -/
def quoteChar (c : Char) : List Char :=
  match c with
  | '\x00' => ['\\', '0']
  | '\t' => ['\\', 't']
  | '\r' => ['\\', 'r']
  | '\n' => ['\\', 'n']
  | '\\' => ['\\', '\\']
  | '"' => ['\\', '"']
  | _ =>
      if isCombining c || isUnprintable c then
        ['\\', 'u', '\x7b'] ++ hexDigits c.toNat ++ ['\x7d']
      else [c]

/-- A text in quotation marks. -/
def quoted (s : String) : String :=
  String.ofList ('"' :: s.toList.flatMap quoteChar ++ ['"'])

end Text

end SealedStream

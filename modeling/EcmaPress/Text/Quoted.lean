import EcmaPress.Text.Printable

/-!
# Quoted texts

A text between double quotes, as reports show the names of files. Double quotes, backslashes and
all characters that do not show by themselves are escaped; a single quote is not.
-/

namespace EcmaPress

/-- A character by its number. -/
def escapedNumber (c : Char) : List Char :=
  ['\\', 'u', '\x7b'] ++ Nat.toDigits 16 c.toNat ++ ['\x7d']

/-- A character of a quoted text. -/
def escapedInQuotes (c : Char) : List Char :=
  match c with
  | '\x00' => ['\\', '0']
  | '\t' => ['\\', 't']
  | '\n' => ['\\', 'n']
  | '\r' => ['\\', 'r']
  | '"' | '\\' => ['\\', c]
  | c => if isPrintable c then [c] else escapedNumber c

/-- A text between quotes. -/
def quoted (text : String) : String :=
  String.ofList ('"' :: text.toList.flatMap escapedInQuotes ++ ['"'])

end EcmaPress

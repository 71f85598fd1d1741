import EcmaPress.SyntaxError
import EcmaPress.Token

/-!
# Lexemes

How far the gap or the token at the front of a text reaches. Every function here answers a
number of characters and leaves the text alone; cutting the text is the business of `Input`. So
no character can be lost or read twice between two tokens.
-/

namespace EcmaPress
namespace Lexeme

/-- The length of the front part whose characters all satisfy `p`. -/
def run (p : Char → Bool) : List Char → Nat
  | [] => 0
  | c :: rest => if p c then run p rest + 1 else 0

/-- The length of a block comment's rest, from behind its opening through its closing sign.
There is none if the comment is never closed. -/
def blockComment : List Char → Option Nat
  | [] => none
  | '*' :: '/' :: _ => some 2
  | _ :: rest => (blockComment rest).map (· + 1)

/-- Counts `n` further characters in front of a length or of the place of an error. -/
def shift (n : Nat) : Except Nat Nat → Except Nat Nat
  | .ok m => .ok (m + n)
  | .error m => .error (m + n)

/-- The length of the white space, line ends and comments at the front of a text. A block
comment that is never closed is an error, which tells where the comment begins. -/
def gap (text : List Char) : Except Nat Nat :=
  match text with
  | [] => .ok 0
  | c :: rest =>
    if isLineTerminator c || isBlank c then shift 1 (gap rest)
    else if c = '/' then
      match rest with
      | '/' :: line =>
        let n := run (fun d => !isLineTerminator d) line
        shift (n + 2) (gap (line.drop n))
      | '*' :: inside =>
        match blockComment inside with
        | none => .error 0
        | some n => shift (n + 2) (gap (inside.drop n))
      | _ => .ok 0
    else .ok 0
termination_by text.length
decreasing_by all_goals simp_wf; try omega

/-- The length of an identifier or reserved word, escapes included. An escape that is not a
backslash, a `u` and four hexadecimal digits is an error, which tells where the escape begins. -/
def name : List Char → Except Nat Nat
  | '\\' :: 'u' :: a :: b :: c :: d :: rest =>
    if [a, b, c, d].all isHexDigit then shift 6 (name rest) else .error 0
  | '\\' :: _ => .error 0
  | c :: rest => if isIdPart c then shift 1 (name rest) else .ok 0
  | [] => .ok 0

/-- The length of the fraction that a point opens, or zero where no point stands. -/
def fraction : List Char → Nat
  | '.' :: rest => run Char.isDigit rest + 1
  | _ => 0

/-- The length of the sign in front of the digits of an exponent: one or zero. -/
def exponentSign : List Char → Nat
  | c :: _ => if c = '+' ∨ c = '-' then 1 else 0
  | [] => 0

/-- The length of an exponent, or zero where none begins. There is no length if the exponent
has no digits. -/
def exponent : List Char → Option Nat
  | e :: rest =>
    if e = 'e' ∨ e = 'E' then
      match run Char.isDigit (rest.drop (exponentSign rest)) with
      | 0 => none
      | digits + 1 => some (digits + exponentSign rest + 2)
    else some 0
  | [] => some 0

/-- The length of a decimal number: digits, fraction and exponent. -/
def decimal (text : List Char) : Except Fault Nat :=
  let whole := run Char.isDigit text
  let mantissa := whole + fraction (text.drop whole)
  match exponent (text.drop mantissa) with
  | none => .error .invalidNumber
  | some n => .ok (mantissa + n)

/-- The length of a number without regard to what follows it. -/
def numeral (text : List Char) : Except Fault Nat :=
  match text with
  | '0' :: x :: rest =>
    if x = 'x' ∨ x = 'X' then
      match run isHexDigit rest with
      | 0 => .error .invalidHexNumber
      | digits + 1 => .ok (digits + 3)
    else decimal text
  | _ => decimal text

/-- The length of a number. No identifier and no digit may touch its end. -/
def number (text : List Char) : Except Fault Nat :=
  match numeral text with
  | .error fault => .error fault
  | .ok n =>
    match text.drop n with
    | c :: _ =>
      if isIdStart c || c.isDigit || c == '\\' then .error .invalidNumber else .ok n
    | [] => .ok n

/-- The length of a string's rest, from behind its opening quote through its closing one. A
backslash takes the next character with it, which may end a line; there is no length if the
line or the text ends first. -/
def string (quote : Char) : List Char → Option Nat
  | [] => none
  | '\\' :: '\r' :: '\n' :: rest => (string quote rest).map (· + 3)
  | '\\' :: _ :: rest => (string quote rest).map (· + 2)
  | c :: rest =>
    if isLineTerminator c || c == '\\' then none
    else if c = quote then some 1
    else (string quote rest).map (· + 1)

/-- The length of a regular expression's rest, from behind its opening sign through its closing
one, which does not count inside a class. There is none if the line or the text ends first. -/
def regexBody (inClass : Bool) : List Char → Option Nat
  | [] => none
  | '\\' :: c :: rest =>
    if isLineTerminator c then none else (regexBody inClass rest).map (· + 2)
  | c :: rest =>
    if isLineTerminator c || c == '\\' then none
    else if c = '/' ∧ inClass = false then some 1
    else (regexBody (c == '[' || (inClass && c != ']')) rest).map (· + 1)

/-- The length of a regular expression with its flags, in a text that begins with `/`. -/
def regex (text : List Char) : Option Nat :=
  (regexBody false (text.drop 1)).map fun n =>
    n + 1 + run isIdPart (text.drop (n + 1))

/-- The length of the longest sign at the front of a text. -/
def punct (text : List Char) : Option Nat :=
  (punctuators.find? fun sign => sign.toList.isPrefixOf text).map (·.toList.length)

/-- The kind and length of the token at the front of a text, or a fault and where in the text
it lies. -/
def scan (text : List Char) : Except (Fault × Nat) (TokenKind × Nat) :=
  match text with
  | [] => .ok (.endOfText, 0)
  | c :: rest =>
    if isIdStart c || c == '\\' then
      match name text with
      | .error n => .error (.invalidEscape, n)
      | .ok n => .ok (.name, n)
    else if c.isDigit || (c == '.' && rest.head?.any Char.isDigit) then
      match number text with
      | .error fault => .error (fault, 0)
      | .ok n => .ok (.number, n)
    else if c == '"' || c == '\'' then
      match string c rest with
      | none => .error (.unterminatedString, 0)
      | some n => .ok (.string, n + 1)
    else
      match punct text with
      | none => .error (.illegalCharacter c, 0)
      | some n => .ok (.punct, n)

end Lexeme
end EcmaPress

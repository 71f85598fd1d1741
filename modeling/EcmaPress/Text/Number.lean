/-!
# Numbers in decimal

Natural numbers of 64 bits as they are written in arguments, and the texts that are numbers with
a fraction or an exponent.
-/

namespace EcmaPress

/-- Why a text is no number. -/
inductive NumberFault where
  | empty
  | digit
  | tooLarge
deriving DecidableEq, Repr

/-- The wording of a fault in a number. -/
def NumberFault.message : NumberFault → String
  | .empty => "cannot parse integer from empty string"
  | .digit => "invalid digit found in string"
  | .tooLarge => "number too large to fit in target type"

/-- The number of some more digits behind `n`. The first thing that goes wrong counts. -/
def readDigits (n : Nat) : List Char → Except NumberFault Nat
  | [] => .ok n
  | c :: rest =>
    if c.isDigit then
      let next := n * 10 + (c.toNat - '0'.toNat)
      if next < 2 ^ 64 then readDigits next rest else .error .tooLarge
    else .error .digit

/-- The number that a text stands for. It may begin with a plus sign. -/
def readNumber (text : String) : Except NumberFault Nat :=
  match text.toList with
  | [] => .error .empty
  | ['+'] => .error .digit
  | '+' :: digits => readDigits 0 digits
  | digits => readDigits 0 digits

/-- Whether a text is an exponent or empty. -/
def isExponent : List Char → Bool
  | [] => true
  | 'e' :: text | 'E' :: text =>
    let digits := if ['+', '-'].any (text.head? = some ·) then text.drop 1 else text
    !digits.isEmpty && digits.all Char.isDigit
  | _ => false

/-- Whether a text is a number without a sign: digits with or without a point before, among or
behind them, and an exponent or none, or else the word for what is no finite number. -/
def isFloating (text : List Char) : Bool :=
  let whole := text.takeWhile Char.isDigit
  let behind := text.drop whole.length
  let fraction := if behind.head? = some '.' then (behind.drop 1).takeWhile Char.isDigit else []
  let behind := if behind.head? = some '.' then behind.drop (fraction.length + 1) else behind
  (!(whole ++ fraction).isEmpty && isExponent behind) ||
    ["inf", "infinity", "nan"].contains (String.ofList text).toLower

end EcmaPress

import EcmaPress.Text.Position

/-!
# Errors in a source text

Why a text is not a program, kept as a cause; the wording is in `Fault.message`, and
`SyntaxError.message` adds the place and the name of the source.
-/

namespace EcmaPress

/-- The reasons to refuse a source text. -/
inductive Fault where
  | illegalCharacter (c : Char)
  | unterminatedComment
  | unterminatedString
  | unterminatedRegex
  | invalidEscape
  | invalidHexNumber
  | invalidNumber
  | unexpectedToken (text : String)
  | unexpectedEnd
  | nestedTooDeep
  | lineBreakAfterThrow
  | unnamedFunction
  | invalidAssignment
  | invalidPrefixOperand
  | invalidPostfixOperand
  | invalidForInTarget
deriving DecidableEq, Repr

/-- The wording of a fault. -/
def Fault.message : Fault → String
  | .illegalCharacter c => s!"Illegal character '{c}'"
  | .unterminatedComment => "Unterminated comment"
  | .unterminatedString => "Unterminated string literal"
  | .unterminatedRegex => "Unterminated regular expression"
  | .invalidEscape => "Invalid Unicode escape sequence"
  | .invalidHexNumber => "Invalid hexadecimal literal"
  | .invalidNumber => "Invalid numeric literal"
  | .unexpectedToken text => s!"Unexpected '{text}'"
  | .unexpectedEnd => "Unexpected end of input"
  | .nestedTooDeep => "Maximum nesting depth exceeded"
  | .lineBreakAfterThrow => "Illegal newline after throw"
  | .unnamedFunction => "Function statement requires a name"
  | .invalidAssignment => "Invalid left-hand side in assignment"
  | .invalidPrefixOperand => "Invalid left-hand side in prefix operation"
  | .invalidPostfixOperand => "Invalid left-hand side in postfix operation"
  | .invalidForInTarget => "Invalid left-hand side in for-in"

/-- A fault at a place of a source, which may have a name. -/
structure SyntaxError where
  fault : Fault
  pos : Position
  source : Option String := none
deriving DecidableEq, Repr

namespace SyntaxError

/-- One line for the reader: the fault, its line and column, and the source if it is known. -/
def message (error : SyntaxError) : String :=
  let place := s!"{error.fault.message} at {error.pos.line}:{error.pos.column}"
  match error.source with
  | none => place
  | some name => s!"{place} in '{name}'"

end SyntaxError
end EcmaPress

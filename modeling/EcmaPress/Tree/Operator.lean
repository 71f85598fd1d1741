/-!
# Operators

The operators of the language with their spelling, and how tightly the binary ones bind.
-/

namespace EcmaPress

/-- Operators that stand in front of one operand and leave it unchanged. -/
inductive UnaryOperator where
  | plus | minus | complement | not | delete | void | typeof
deriving DecidableEq, Repr

/-- Operators that add or subtract one, in front of their operand or behind it. -/
inductive UpdateOperator where
  | increment | decrement
deriving DecidableEq, Repr

/-- Operators between two operands, assignments apart. -/
inductive BinaryOperator where
  | or | and | bitOr | bitXor | bitAnd
  | equal | notEqual | identical | notIdentical
  | less | greater | atMost | atLeast | instanceOf | isIn
  | shiftLeft | shiftRight | shiftRightZero
  | add | subtract | multiply | divide | remainder
deriving DecidableEq, Repr

/-- Assignment: plain, or combined with an operation on the old value. -/
inductive AssignOperator where
  | assign | add | subtract | multiply | divide | remainder
  | shiftLeft | shiftRight | shiftRightZero | bitAnd | bitOr | bitXor
deriving DecidableEq, Repr

/-- Operators are told by their spelling where each one is found by its own. -/
theorem find?_symbol {α : Type} {symbol : α → String} {all : List α}
    (hall : ∀ op, all.find? (symbol · == symbol op) = some op) {text : String} {op : α} :
    all.find? (symbol · == text) = some op ↔ text = symbol op := by
  constructor
  · intro h
    have hfound := List.find?_some h
    exact (beq_iff_eq.mp hfound).symm
  · rintro rfl
    exact hall op

namespace UnaryOperator

/-- The spelling of a unary operator. -/
def symbol : UnaryOperator → String
  | plus => "+"
  | minus => "-"
  | complement => "~"
  | not => "!"
  | delete => "delete"
  | void => "void"
  | typeof => "typeof"

/-- Whether the operator is a word. -/
def isWord : UnaryOperator → Bool
  | delete | void | typeof => true
  | _ => false

/-- All unary operators. -/
def all : List UnaryOperator :=
  [plus, minus, complement, not, delete, void, typeof]

/-- The unary operator of a spelling. -/
def ofSymbol? (text : String) : Option UnaryOperator :=
  all.find? (·.symbol == text)

theorem ofSymbol?_eq_some {text : String} {op : UnaryOperator} :
    ofSymbol? text = some op ↔ text = op.symbol :=
  find?_symbol (by intro op; cases op <;> decide)

end UnaryOperator

namespace UpdateOperator

/-- The spelling of an update operator. -/
def symbol : UpdateOperator → String
  | increment => "++"
  | decrement => "--"

/-- The update operator of a spelling. -/
def ofSymbol? (text : String) : Option UpdateOperator :=
  [increment, decrement].find? (·.symbol == text)

theorem ofSymbol?_eq_some {text : String} {op : UpdateOperator} :
    ofSymbol? text = some op ↔ text = op.symbol :=
  find?_symbol (by intro op; cases op <;> decide)

end UpdateOperator

namespace BinaryOperator

/-- The spelling of a binary operator. -/
def symbol : BinaryOperator → String
  | or => "||"
  | and => "&&"
  | bitOr => "|"
  | bitXor => "^"
  | bitAnd => "&"
  | equal => "=="
  | notEqual => "!="
  | identical => "==="
  | notIdentical => "!=="
  | less => "<"
  | greater => ">"
  | atMost => "<="
  | atLeast => ">="
  | instanceOf => "instanceof"
  | isIn => "in"
  | shiftLeft => "<<"
  | shiftRight => ">>"
  | shiftRightZero => ">>>"
  | add => "+"
  | subtract => "-"
  | multiply => "*"
  | divide => "/"
  | remainder => "%"

/-- How tightly a binary operator binds, from 1 to 10. -/
def precedence : BinaryOperator → Nat
  | or => 1
  | and => 2
  | bitOr => 3
  | bitXor => 4
  | bitAnd => 5
  | equal | notEqual | identical | notIdentical => 6
  | less | greater | atMost | atLeast | instanceOf | isIn => 7
  | shiftLeft | shiftRight | shiftRightZero => 8
  | add | subtract => 9
  | multiply | divide | remainder => 10

/-- No operator binds more tightly than level 10. -/
theorem precedence_le (op : BinaryOperator) : op.precedence ≤ 10 := by
  cases op <;> decide

/-- All binary operators. -/
def all : List BinaryOperator :=
  [or, and, bitOr, bitXor, bitAnd, equal, notEqual, identical, notIdentical, less, greater,
    atMost, atLeast, instanceOf, isIn, shiftLeft, shiftRight, shiftRightZero, add, subtract,
    multiply, divide, remainder]

/-- The binary operator of a spelling. -/
def ofSymbol? (text : String) : Option BinaryOperator :=
  all.find? (·.symbol == text)

theorem ofSymbol?_eq_some {text : String} {op : BinaryOperator} :
    ofSymbol? text = some op ↔ text = op.symbol :=
  find?_symbol (by intro op; cases op <;> decide)

end BinaryOperator

namespace AssignOperator

/-- The spelling of an assignment operator. -/
def symbol : AssignOperator → String
  | assign => "="
  | add => "+="
  | subtract => "-="
  | multiply => "*="
  | divide => "/="
  | remainder => "%="
  | shiftLeft => "<<="
  | shiftRight => ">>="
  | shiftRightZero => ">>>="
  | bitAnd => "&="
  | bitOr => "|="
  | bitXor => "^="

/-- All assignment operators. -/
def all : List AssignOperator :=
  [assign, add, subtract, multiply, divide, remainder, shiftLeft, shiftRight, shiftRightZero,
    bitAnd, bitOr, bitXor]

/-- The assignment operator of a spelling. -/
def ofSymbol? (text : String) : Option AssignOperator :=
  all.find? (·.symbol == text)

theorem ofSymbol?_eq_some {text : String} {op : AssignOperator} :
    ofSymbol? text = some op ↔ text = op.symbol :=
  find?_symbol (by intro op; cases op <;> decide)

end AssignOperator
end EcmaPress

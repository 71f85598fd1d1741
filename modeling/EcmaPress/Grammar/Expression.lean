import EcmaPress.Grammar.Parser

/-!
# The grammar of expressions

The parsers of expressions, from literals up to the comma operator. They are not recursive: where
an expression nests, they call the parsers of the next inner level, which `Inner` provides. Runs
of operators, calls and member accesses are loops, bounded by `maxChain`.
-/

namespace EcmaPress

/-- The longest run of binary operators, calls or member accesses that is folded into one
expression. -/
def maxChain : Nat := 1024

/-- The parsers of what nests one level deeper. -/
structure Inner where
  statement : Parser Statement
  /-- The flag tells that `in` is no operator here. -/
  assignment : Bool → Parser Expression
  unary : Parser Expression
  newExpression : Parser Expression

namespace Token

/-- Whether the token begins a member access. -/
def isMemberSuffix (token : Token) : Bool :=
  token.is "." || token.is "["

/-- Whether the token begins a call or a member access. -/
def isSuffix (token : Token) : Bool :=
  token.is "(" || token.isMemberSuffix

/-- The binary operator that the token is, if it is one. -/
def binaryOperator? (token : Token) (noIn : Bool) : Option BinaryOperator :=
  if !(token.kind == .punct || token.kind == .name) || (noIn && token.text == "in") then none
  else BinaryOperator.ofSymbol? token.text

/-- The unary operator that the token is, if it is one. -/
def unaryOperator? (token : Token) : Option UnaryOperator :=
  if token.kind == .punct || token.kind == .name then UnaryOperator.ofSymbol? token.text
  else none

/-- The update operator that the token is, if it is one. -/
def updateOperator? (token : Token) : Option UpdateOperator :=
  if token.kind == .punct then UpdateOperator.ofSymbol? token.text else none

/-- The assignment operator that the token is, if it is one. -/
def assignOperator? (token : Token) : Option AssignOperator :=
  if token.kind == .punct then AssignOperator.ofSymbol? token.text else none

end Token

namespace Grammar

open EcmaPress.Parser

variable (inner : Inner)

/-- Expressions with commas between them; a single one stands for itself. -/
def expression (noIn : Bool) : Parser Expression := do
  match ← separated (inner.assignment noIn) with
  | [single] => return single
  | several => return .sequence several

/-- An expression in parentheses, as the head of a statement has it. -/
def parenthesized : Parser Expression := do
  let _ ← expect "("
  let inside ← expression inner false
  let _ ← expect ")"
  return inside

/-- A statement, or nothing before a token that satisfies `stop`. -/
def statementUnless (stop : Token → Bool) : Parser (Option Statement) := do
  let token ← peek
  if stop token then return none
  else if token.isEnd then unexpected
  else return some (← inner.statement)

/-- Statements up to a token that satisfies `stop`, which stays unread. -/
def statementsUntil (stop : Token → Bool) : Parser (List Statement) :=
  many (statementUnless inner stop)

/-- Statements in braces. -/
def block : Parser (List Statement) := do
  let _ ← expect "\x7b"
  let body ← statementsUntil inner (·.is "\x7d")
  let _ ← advance
  return body

/-- The parameters of a function, in parentheses. -/
def parameters : Parser (List Identifier) :=
  inParens identifier

/-- The parameters of an accessor, in parentheses: only a setter has one. -/
def accessorParameters : AccessorKind → Parser (List Identifier)
  | .get => do
    let _ ← expect "("
    let _ ← expect ")"
    return []
  | .set => do
    let _ ← expect "("
    let param ← identifier
    let _ ← expect ")"
    return [param]

/-- The parameters and the body of a function. -/
def functionParts (parameters : Parser (List Identifier)) :
    Parser (List Identifier × List Statement) := do
  let params ← parameters
  let body ← block inner
  return (params, body)

/-- The arguments of a call, in parentheses. -/
def arguments : Parser (List Expression) :=
  inParens (inner.assignment false)

/-- A comma between two items of a literal, which `close` may end instead. -/
def itemEnd (close : String) : Parser Unit := do
  if (← peek).is close then return ()
  else
    let _ ← expect ","
    return ()

/-- An element of an array literal with the comma behind it, or the end of the literal. A comma
with no value before it is a hole. -/
def element : Parser (Option Element) := do
  if ← eat "]" then return none
  else if ← eat "," then return some .hole
  else
    let value ← inner.assignment false
    itemEnd "]"
    return some (.value value)

/-- An array literal. One comma behind the last value is no hole. -/
def array : Parser Expression := do
  let opening ← advance
  let elements ← many (element inner)
  return .array opening.pos elements

/-- The key of a property: any word, a string or a number. -/
def propertyKey : Parser PropertyKey := do
  match (← peek).kind with
  | .name | .string | .number =>
    let token ← advance
    return ⟨token.text, token.pos⟩
  | _ => unexpected

/-- The kind of accessor that a key announces when no colon follows it. -/
def accessorKind? (key : PropertyKey) : Option AccessorKind :=
  if key.raw == "get" then some .get
  else if key.raw == "set" then some .set
  else none

/-- A property of an object literal. -/
def property : Parser Property := do
  let key ← propertyKey
  match accessorKind? key, (← peek).is ":" with
  | some kind, false =>
    let name ← propertyKey
    let (params, body) ← functionParts inner (accessorParameters kind)
    return .accessor kind name (.mk key.pos none params body)
  | _, _ =>
    let _ ← expect ":"
    let value ← inner.assignment false
    return .init key value

/-- A property with the comma behind it, or the end of the literal. -/
def propertyItem : Parser (Option Property) := do
  if ← eat "\x7d" then return none
  else
    let property ← property inner
    itemEnd "\x7d"
    return some property

/-- An object literal. -/
def object : Parser Expression := do
  let opening ← advance
  let properties ← many (propertyItem inner)
  return .object opening.pos properties

/-- A literal that is the current token. -/
def literal (kind : LiteralKind) : Parser Expression := do
  let token ← advance
  return .literal kind token.text token.pos

/-- A regular expression, whose first sign is the current token. -/
def regex : Parser Expression := do
  rescanRegex
  literal .regex

/-- The name of a function expression, if it has one. -/
def functionName : Parser (Option Identifier) := do
  if (← peek).is "(" then return none else return some (← identifier)

/-- A function expression. -/
def functionExpression : Parser Expression := do
  let keyword ← advance
  let id ← functionName
  let (params, body) ← functionParts inner parameters
  return .function (.mk keyword.pos id params body)

/-- An expression in parentheses. -/
def paren : Parser Expression := do
  let opening ← advance
  let inside ← expression inner false
  let _ ← expect ")"
  return .paren opening.pos inside

/-- An expression without operators: a literal, a name, a function or something in brackets. A
slash begins a regular expression here. -/
def primary : Parser Expression := do
  let token ← peek
  match token.kind, token.text with
  | .number, _ => literal .number
  | .string, _ => literal .string
  | .name, "this" => return .thisValue (← advance).pos
  | .name, "null" => literal .null
  | .name, "true" | .name, "false" => literal .boolean
  | .name, "function" => functionExpression inner
  | .name, _ => return .identifier (← identifier)
  | .punct, "/" | .punct, "/=" => regex
  | .punct, "[" => array inner
  | .punct, "\x7b" => object inner
  | .punct, "(" => paren inner
  | _, _ => unexpected

/-- One member access, by name or in brackets, on `object`. -/
def member (object : Expression) : Parser Expression := do
  if ← eat "." then
    if (← peek).kind == .name then
      let name ← advance
      return .member object ⟨name.text, name.pos⟩
    else
      unexpected
  else
    let _ ← expect "["
    let property ← expression inner false
    let _ ← expect "]"
    return .index object property

/-- One call of `callee` or one member access on it. -/
def suffix (callee : Expression) : Parser Expression := do
  if (← peek).is "(" then return .call callee (← arguments inner) else member inner callee

/-- Goes on behind `base` with what `link` reads, as long as the token satisfies `more`, at most
`links` times. -/
def chain (more : Token → Bool) (link : Expression → Parser Expression) (base : Expression) :
    Nat → Parser Expression
  | 0 => do
    if more (← peek) then fail .nestedTooDeep else return base
  | links + 1 => do
    if more (← peek) then
      let base ← link base
      chain more link base links
    else
      return base

/-- What an object is made of by `new`: an expression that begins with `new` itself, or one
without operators. -/
def newOperand : Parser Expression := do
  if (← peek).is "new" then inner.newExpression else primary inner

/-- The list of arguments behind `callee`, if there is one, makes an object of it. -/
def newArguments (pos : Position) (callee : Expression) : Parser Expression := do
  if (← peek).is "(" then return .newCall pos callee (← arguments inner)
  else return .newBare pos callee

/-- An expression that begins with `new`, which takes the first list of arguments for itself. -/
def newExpression : Parser Expression := do
  let keyword ← advance
  let base ← newOperand inner
  let callee ← chain Token.isMemberSuffix (member inner) base maxChain
  newArguments inner keyword.pos callee

/-- What calls and member accesses stand behind. -/
def callOperand : Parser Expression := do
  if (← peek).is "new" then newExpression inner else primary inner

/-- An expression with its calls and member accesses. -/
def leftHandSide : Parser Expression := do
  let base ← callOperand inner
  chain Token.isSuffix (suffix inner) base maxChain

/-- Goes on behind `argument` with an increment or decrement on the same line, if there is one. -/
def postfixRest (argument : Expression) : Parser Expression := do
  let token ← peek
  match token.updateOperator?, token.newlineBefore with
  | some op, false =>
    if argument.isReference then
      let _ ← advance
      return .postUpdate op token.pos argument
    else
      fail .invalidPostfixOperand
  | _, _ => return argument

/-- An expression with an increment or decrement behind it. -/
def postfixUpdate : Parser Expression := do
  let argument ← leftHandSide inner
  postfixRest argument

/-- An expression with the operators in front of it. -/
def unary : Parser Expression := do
  let token ← peek
  match token.unaryOperator?, token.updateOperator? with
  | some op, _ =>
    let _ ← advance
    let argument ← inner.unary
    return .unary op token.pos argument
  | none, some op =>
    let _ ← advance
    let argument ← inner.unary
    if argument.isReference then return .preUpdate op token.pos argument
    else throw ⟨.invalidPrefixOperand, token.pos, none⟩
  | none, none => postfixUpdate inner

/-- How many operators may still be read that bind at least as tightly as `least`, of which
`links` on the same level. -/
@[irreducible] def operatorsLeft (least links : Nat) : Nat :=
  (11 - least) * (maxChain + 1) + links

theorem operatorsLeft_links (least links : Nat) :
    operatorsLeft least links < operatorsLeft least (links + 1) := by
  simp [operatorsLeft]

theorem operatorsLeft_right (op : BinaryOperator) {least : Nat} (h : least ≤ op.precedence)
    (links : Nat) : operatorsLeft (op.precedence + 1) maxChain < operatorsLeft least links := by
  have hlevel : 11 - least = (11 - (op.precedence + 1)) + (op.precedence - least) + 1 := by
    have := op.precedence_le
    omega
  rw [operatorsLeft, operatorsLeft, hlevel, Nat.add_mul, Nat.add_mul]
  omega

/-- Goes on behind the operand `left` with the binary operators that bind at least as tightly as
`least`, at most `links` of them. The right operand of each takes the operators that bind more
tightly. -/
def binaryRest (noIn : Bool) (least links : Nat) (left : Expression) : Parser Expression := do
  let token ← peek
  match token.binaryOperator? noIn with
  | none => return left
  | some op =>
    if op.precedence < least then
      return left
    else
      match links with
      | 0 => fail .nestedTooDeep
      | links + 1 =>
        let _ ← advance
        let operand ← unary inner
        let right ← binaryRest noIn (op.precedence + 1) maxChain operand
        binaryRest noIn least links (.binary op token.pos left right)
termination_by operatorsLeft least links
decreasing_by
  · exact operatorsLeft_right op (by omega) _
  · exact operatorsLeft_links least links

/-- An expression with binary operators. -/
def binary (noIn : Bool) : Parser Expression := do
  let left ← unary inner
  binaryRest inner noIn 1 maxChain left

/-- Goes on behind `test` with two outcomes, if they stand there. Only the first outcome may hold
the operator `in` when it is excluded around the condition. -/
def conditionalRest (noIn : Bool) (test : Expression) : Parser Expression := do
  if ← eat "?" then
    let consequent ← inner.assignment false
    let _ ← expect ":"
    let alternate ← inner.assignment noIn
    return .conditional test consequent alternate
  else
    return test

/-- An expression without assignments. -/
def conditional (noIn : Bool) : Parser Expression := do
  let test ← binary inner noIn
  conditionalRest inner noIn test

/-- Goes on behind `left` with an assignment to it, if one stands there. -/
def assignmentRest (noIn : Bool) (left : Expression) : Parser Expression := do
  let token ← peek
  match token.assignOperator? with
  | none => return left
  | some op =>
    if left.isReference then
      let _ ← advance
      let right ← inner.assignment noIn
      return .assign op token.pos left right
    else
      fail .invalidAssignment

/-- An expression without commas. -/
def assignment (noIn : Bool) : Parser Expression := do
  let left ← conditional inner noIn
  assignmentRest inner noIn left

end Grammar
end EcmaPress

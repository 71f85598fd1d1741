import EcmaPress.Grammar.Expression

/-!
# The grammar of statements

The parsers of statements. As with expressions, a statement inside a statement is read by the
parser of the next inner level.
-/

namespace EcmaPress
namespace Grammar

open EcmaPress.Parser

variable (inner : Inner)

/-- A variable with its first value, if it has one. -/
def declarator (noIn : Bool) : Parser Declarator := do
  let id ← identifier
  let token ← peek
  if token.is "=" then
    let _ ← advance
    let value ← inner.assignment noIn
    return .init id token.pos value
  else
    return .bare id

/-- The statement `var`. -/
def declarations : Parser Statement := do
  let keyword ← advance
  let declarators ← separated (declarator inner false)
  semicolon
  return .declarations keyword.pos declarators

/-- A keyword with an expression in parentheses behind it, and the place of the keyword. -/
def tested : Parser (Position × Expression) := do
  let keyword ← advance
  let test ← parenthesized inner
  return (keyword.pos, test)

/-- The statement behind `else`, if there is one. -/
def elseBranch : Parser (Option Statement) := do
  if ← eat "else" then return some (← inner.statement) else return none

/-- The statement `if`. An `else` belongs to the nearest one. -/
def ifElse : Parser Statement := do
  let (pos, test) ← tested inner
  let consequent ← inner.statement
  let alternate ← elseBranch inner
  return .ifElse pos test consequent alternate

/-- The statement `do`, whose semicolon may always be left out. -/
def doWhile : Parser Statement := do
  let keyword ← advance
  let body ← inner.statement
  let _ ← expect "while"
  let test ← parenthesized inner
  let _ ← eat ";"
  return .doWhile keyword.pos body test

/-- The statement `while`. -/
def whileDo : Parser Statement := do
  let (pos, test) ← tested inner
  let body ← inner.statement
  return .whileDo pos test body

/-- What stands between the parentheses of `for`. -/
inductive ForHead where
  | loop (init : Option ForInit) (test update : Option Expression)
  | each (left : ForInit) (right : Expression)

/-- The `for` statement with this head. -/
def ForHead.statement (pos : Position) (body : Statement) : ForHead → Statement
  | loop init test update => .forLoop pos init test update body
  | each left right => .forIn pos left right body

/-- What stands between the parentheses of `for` before the first separator, and whether the
separator is `in`. -/
def forInit : Parser (Option ForInit × Bool) := do
  let token ← peek
  if token.is ";" then
    return (none, false)
  else if token.is "var" then
    let _ ← advance
    let declarators ← separated (declarator inner true)
    let isIn := declarators.length == 1 && (← peek).is "in"
    return (some (.declarations token.pos declarators), isIn)
  else
    let expression ← expression inner true
    let isIn := (← peek).is "in"
    if isIn && !expression.isReference then fail .invalidForInTarget
    else return (some (.expression expression), isIn)

/-- An expression that may be missing before the sign `close`. -/
def expressionBefore (close : String) : Parser (Option Expression) := do
  if (← peek).is close then
    return none
  else
    let expression ← expression inner false
    return some expression

/-- The head of `for` behind its first part: `in` goes on, or a semicolon does. -/
def forRest : Option ForInit × Bool → Parser ForHead
  | (some left, true) => do
    let _ ← expect "in"
    let right ← expression inner false
    return .each left right
  | (init, _) => do
    let _ ← expect ";"
    let test ← expressionBefore inner ";"
    let _ ← expect ";"
    let update ← expressionBefore inner ")"
    return .loop init test update

/-- The head of `for`, without its parentheses. -/
def forHead : Parser ForHead := do
  let init ← forInit inner
  forRest inner init

/-- The statement `for` in both of its forms. -/
def forLoop : Parser Statement := do
  let keyword ← advance
  let _ ← expect "("
  let head ← forHead inner
  let _ ← expect ")"
  let body ← inner.statement
  return head.statement keyword.pos body

/-- The label of a jump, which must stand on the same line. -/
def jumpLabel : Parser (Option Identifier) := do
  let token ← peek
  if !token.newlineBefore && token.isIdentifier then return some (← identifier) else return none

/-- The statements `continue` and `break`. -/
def jump (kind : JumpKind) : Parser Statement := do
  let keyword ← advance
  let label ← jumpLabel
  semicolon
  return .jump kind keyword.pos label

/-- The value of `return`, which must begin on the same line. -/
def returned : Parser (Option Expression) := do
  let token ← peek
  if token.is ";" || token.is "\x7d" || token.isEnd || token.newlineBefore then return none
  else return some (← expression inner false)

/-- The statement `return`. -/
def returnValue : Parser Statement := do
  let keyword ← advance
  let argument ← returned inner
  semicolon
  return .returnValue keyword.pos argument

/-- The statement `with`. -/
def withObject : Parser Statement := do
  let (pos, object) ← tested inner
  let body ← inner.statement
  return .withObject pos object body

/-- The statements of a clause of `switch`. -/
def clauseBody : Parser (List Statement) := do
  let _ ← expect ":"
  statementsUntil inner fun token =>
    token.is "case" || token.is "default" || token.is "\x7d"

/-- A clause of `switch` that has a test, if one stands here. -/
def caseClause : Parser (Option SwitchClause) := do
  if ← eat "case" then
    let test ← expression inner false
    let body ← clauseBody inner
    return some (.mk (some test) body)
  else
    return none

/-- Clauses of `switch` that have a test. -/
def caseClauses : Parser (List SwitchClause) :=
  many (caseClause inner)

/-- The default clause of `switch` with the clauses behind it, if there is one. -/
def defaultClauses : Parser (List SwitchClause) := do
  if ← eat "default" then
    let body ← clauseBody inner
    let after ← caseClauses inner
    return .mk none body :: after
  else
    return []

/-- The statement `switch`. At most one clause is the default one. -/
def switch : Parser Statement := do
  let (pos, discriminant) ← tested inner
  let _ ← expect "\x7b"
  let before ← caseClauses inner
  let after ← defaultClauses inner
  let _ ← expect "\x7d"
  return .switch pos discriminant (before ++ after)

/-- The statement `throw`. Its value must begin on the same line. -/
def throwValue : Parser Statement := do
  let keyword ← advance
  if (← peek).newlineBefore then
    fail .lineBreakAfterThrow
  else
    let argument ← expression inner false
    semicolon
    return .throwValue keyword.pos argument

/-- The handler of `try`, if there is one. -/
def catchClause : Parser (Option CatchClause) := do
  if ← eat "catch" then
    let _ ← expect "("
    let param ← identifier
    let _ ← expect ")"
    let body ← block inner
    return some (.mk param body)
  else
    return none

/-- The final block of `try`, if there is one. -/
def finalizer : Parser (Option (List Statement)) := do
  if ← eat "finally" then return some (← block inner) else return none

/-- The statement `try`, which has a handler, a final block or both. -/
def tryCatch : Parser Statement := do
  let keyword ← advance
  let body ← block inner
  let handler ← catchClause inner
  let finalizer ← finalizer inner
  if handler.isNone && finalizer.isNone then unexpected
  else return .tryCatch keyword.pos body handler finalizer

/-- The statement `debugger`. -/
def debugger : Parser Statement := do
  let keyword ← advance
  semicolon
  return .debugger keyword.pos

/-- The declaration of a function, which must have a name. -/
def functionDeclaration : Parser Statement := do
  let keyword ← advance
  if (← peek).is "(" then
    fail .unnamedFunction
  else
    let id ← identifier
    let (params, body) ← functionParts inner parameters
    return .function (.mk keyword.pos (some id) params body)

/-- An expression as a statement, or a label with its statement. -/
def expressionStatement : Parser Statement := do
  let expression ← expression inner false
  match expression, (← peek).is ":" with
  | .identifier label, true =>
    let _ ← advance
    let body ← inner.statement
    return .labeled label body
  | _, _ =>
    semicolon
    return .expression expression

/-- A statement, told by its first token. -/
def statement : Parser Statement := do
  let token ← peek
  match token.kind, token.text with
  | .punct, "\x7b" => return .block (← block inner)
  | .punct, ";" =>
    let _ ← advance
    return .empty
  | .name, "var" => declarations inner
  | .name, "if" => ifElse inner
  | .name, "do" => doWhile inner
  | .name, "while" => whileDo inner
  | .name, "for" => forLoop inner
  | .name, "continue" => jump .continue
  | .name, "break" => jump .break
  | .name, "return" => returnValue inner
  | .name, "with" => withObject inner
  | .name, "switch" => switch inner
  | .name, "throw" => throwValue inner
  | .name, "try" => tryCatch inner
  | .name, "debugger" => debugger
  | .name, "function" => functionDeclaration inner
  | _, _ => expressionStatement inner

end Grammar
end EcmaPress

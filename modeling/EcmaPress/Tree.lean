import EcmaPress.Text.Position
import EcmaPress.Tree.Operator

/-!
# Syntax trees

The tree of a program. Parentheses are kept as nodes, so that the printer reproduces grouping
without working it out again, and every token that a source map points at keeps its place.
-/

namespace EcmaPress

/-- A name and where it stands. -/
structure Identifier where
  name : String
  pos : Position
deriving DecidableEq, Repr, Inhabited

/-- The kinds of literal. -/
inductive LiteralKind where
  | null
  | boolean
  | number
  | string
  | regex
deriving DecidableEq, Repr

/-- The key of a property as it is written: a name, a string or a number. -/
structure PropertyKey where
  raw : String
  pos : Position
deriving DecidableEq, Repr

/-- The two kinds of property accessor. -/
inductive AccessorKind where
  | get
  | set
deriving DecidableEq, Repr

/-- The statements that leave a loop or a labelled statement, or start the next round. -/
inductive JumpKind where
  | continue
  | break
deriving DecidableEq, Repr

/-- The keyword of an accessor. -/
def AccessorKind.keyword : AccessorKind → String
  | .get => "get"
  | .set => "set"

/-- The keyword of a jump. -/
def JumpKind.keyword : JumpKind → String
  | .continue => "continue"
  | .break => "break"

mutual

/-- Expressions. The place of a node is that of its first token, or of its operator where that
stands between or behind operands. -/
inductive Expression where
  | thisValue (pos : Position)
  | identifier (id : Identifier)
  | literal (kind : LiteralKind) (raw : String) (pos : Position)
  | array (pos : Position) (elements : List Element)
  | object (pos : Position) (properties : List Property)
  | function (function : Function)
  | paren (pos : Position) (inside : Expression)
  | unary (op : UnaryOperator) (pos : Position) (argument : Expression)
  | preUpdate (op : UpdateOperator) (pos : Position) (argument : Expression)
  | postUpdate (op : UpdateOperator) (pos : Position) (argument : Expression)
  | binary (op : BinaryOperator) (pos : Position) (left right : Expression)
  | assign (op : AssignOperator) (pos : Position) (left right : Expression)
  | conditional (test consequent alternate : Expression)
  | call (callee : Expression) (arguments : List Expression)
  /-- An object made without a list of arguments. -/
  | newBare (pos : Position) (callee : Expression)
  | newCall (pos : Position) (callee : Expression) (arguments : List Expression)
  | member (object : Expression) (property : Identifier)
  | index (object property : Expression)
  | sequence (expressions : List Expression)

/-- An element of an array literal; a hole is a missing one. -/
inductive Element where
  | hole
  | value (value : Expression)

/-- A property of an object literal. -/
inductive Property where
  | init (key : PropertyKey) (value : Expression)
  | accessor (kind : AccessorKind) (key : PropertyKey) (function : Function)

/-- A function declaration, function expression or accessor; the place is that of its keyword. -/
inductive Function where
  | mk (pos : Position) (id : Option Identifier) (params : List Identifier)
    (body : List Statement)

/-- One variable of a declaration, with the place of the `=` where it has a first value. -/
inductive Declarator where
  | bare (id : Identifier)
  | init (id : Identifier) (pos : Position) (value : Expression)

/-- What a `for` statement begins with: declarations, at the place of `var`, or an expression. -/
inductive ForInit where
  | declarations (pos : Position) (declarators : List Declarator)
  | expression (expression : Expression)

/-- A clause of a `switch` statement; the default clause has no test. -/
inductive SwitchClause where
  | mk (test : Option Expression) (body : List Statement)

/-- The handler of a `try` statement. -/
inductive CatchClause where
  | mk (param : Identifier) (body : List Statement)

/-- Statements. The place of a node is that of its keyword. -/
inductive Statement where
  | block (body : List Statement)
  | declarations (pos : Position) (declarators : List Declarator)
  | empty
  | expression (expression : Expression)
  | ifElse (pos : Position) (test : Expression) (consequent : Statement)
    (alternate : Option Statement)
  | doWhile (pos : Position) (body : Statement) (test : Expression)
  | whileDo (pos : Position) (test : Expression) (body : Statement)
  | forLoop (pos : Position) (init : Option ForInit) (test update : Option Expression)
    (body : Statement)
  | forIn (pos : Position) (left : ForInit) (right : Expression) (body : Statement)
  | jump (kind : JumpKind) (pos : Position) (label : Option Identifier)
  | returnValue (pos : Position) (argument : Option Expression)
  | withObject (pos : Position) (object : Expression) (body : Statement)
  | switch (pos : Position) (discriminant : Expression) (clauses : List SwitchClause)
  | labeled (label : Identifier) (body : Statement)
  | throwValue (pos : Position) (argument : Expression)
  | tryCatch (pos : Position) (body : List Statement) (handler : Option CatchClause)
    (finalizer : Option (List Statement))
  | debugger (pos : Position)
  | function (function : Function)

end

/-- A program: the statements of a source text. -/
structure Program where
  body : List Statement

/-- Whether an expression may be assigned to: a name, a member, or one of these in
parentheses. -/
def Expression.isReference : Expression → Bool
  | .identifier _ | .member .. | .index .. => true
  | .paren _ inside => inside.isReference
  | _ => false

/-- Whether a statement is a block. -/
def Statement.isBlock : Statement → Bool
  | .block _ => true
  | _ => false

/-- Whether a statement is an `if` statement. -/
def Statement.isIf : Statement → Bool
  | .ifElse .. => true
  | _ => false

end EcmaPress

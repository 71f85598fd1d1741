import EcmaPress.Tree

/-!
# Pieces of a printed program

A tree as the list of things to write: its tokens in order, and between them the places where a
layout may put spaces, line ends and indentation. The list does not depend on the layout, so
what is printed and how it is laid out are two matters.
-/

namespace EcmaPress

/-- What a token looks like at its end, as far as the next token must know. -/
inductive Shape where
  | plain
  /-- A number of decimal digits only, to which a point would attach itself. -/
  | integer
  | regex
deriving DecidableEq, Repr

/-- One thing to write. -/
inductive Piece where
  /-- A token with its spelling and, if a source map shall point at it, its place. -/
  | token (text : String) (origin : Option Position) (shape : Shape)
  /-- A name that may be exchanged for a shorter one. -/
  | name (id : Identifier)
  /-- The semicolon that ends a statement. Behind the `last` one of a list it may be dropped. -/
  | terminator (last : Bool)
  | space
  | newline
  | indent
  | dedent
deriving DecidableEq, Repr

namespace Piece

/-- A sign or word that no source map points at. -/
def sign (text : String) : Piece :=
  .token text none .plain

/-- A sign or word with its place. -/
def mapped (text : String) (pos : Position) : Piece :=
  .token text (some pos) .plain

/-- The comma behind an item, unless the item is the last one. -/
def comma (isLast : Bool) : List Piece :=
  if isLast then [] else [sign ",", space]

/-- Pieces in parentheses. -/
def inParens (inside : List Piece) : List Piece :=
  sign "(" :: inside ++ [sign ")"]

/-- The pieces of the statements of a block, in braces. -/
def inBraces (inside : List Piece) : List Piece :=
  if inside.isEmpty then [sign "\x7b", sign "\x7d"]
  else sign "\x7b" :: indent :: inside ++ [dedent, newline, sign "\x7d"]

/-- Names with commas between them, in parentheses. -/
def parameters : List Identifier → List Piece
  | [] => []
  | id :: rest => name id :: comma rest.isEmpty ++ parameters rest

end Piece

/-- The shape of a literal. -/
def LiteralKind.shape (kind : LiteralKind) (raw : String) : Shape :=
  match kind with
  | .number => if raw.toList.all Char.isDigit then .integer else .plain
  | .regex => .regex
  | _ => .plain

/-- The pieces of a statement that is the body of another one: a block follows on the same line,
and any other statement stands on a line of its own. -/
def Statement.bodyPieces (statement : Statement) (pieces : List Piece) : List Piece :=
  match statement with
  | .block _ => .space :: pieces
  | .empty => pieces
  | _ => .indent :: .newline :: pieces ++ [.dedent]

/-- What separates the body of a statement from the keyword behind it. -/
def Statement.afterBody (statement : Statement) : Piece :=
  if statement.isBlock then .space else .newline

open Piece

mutual

/-- The pieces of an expression. -/
def Expression.pieces : Expression → List Piece
  | .thisValue pos => [mapped "this" pos]
  | .identifier id => [name id]
  | .literal kind raw pos => [token raw (some pos) (kind.shape raw)]
  | .array pos elements => mapped "[" pos :: elementsPieces elements ++ [sign "]"]
  | .object pos properties =>
    mapped "\x7b" pos ::
      ((if properties.isEmpty then []
        else indent :: propertiesPieces properties ++ [dedent, newline]) ++ [sign "\x7d"])
  | .function function => function.pieces
  | .paren pos inside => mapped "(" pos :: inside.pieces ++ [sign ")"]
  | .unary op pos argument =>
    mapped op.symbol pos :: (if op.isWord then [space] else []) ++ argument.pieces
  | .preUpdate op pos argument => mapped op.symbol pos :: argument.pieces
  | .postUpdate op pos argument => argument.pieces ++ [mapped op.symbol pos]
  | .binary op pos left right =>
    left.pieces ++ [space, mapped op.symbol pos, space] ++ right.pieces
  | .assign op pos left right =>
    left.pieces ++ [space, mapped op.symbol pos, space] ++ right.pieces
  | .conditional test consequent alternate =>
    test.pieces ++ [space, sign "?", space] ++ consequent.pieces ++
      [space, sign ":", space] ++ alternate.pieces
  | .call callee arguments => callee.pieces ++ inParens (expressionsPieces arguments)
  | .newBare pos callee => mapped "new" pos :: space :: callee.pieces
  | .newCall pos callee arguments =>
    mapped "new" pos :: space :: callee.pieces ++ inParens (expressionsPieces arguments)
  | .member object property =>
    object.pieces ++ [sign ".", mapped property.name property.pos]
  | .index object property => object.pieces ++ sign "[" :: property.pieces ++ [sign "]"]
  | .sequence expressions => expressionsPieces expressions

/-- The pieces of expressions with commas between them. -/
def expressionsPieces : List Expression → List Piece
  | [] => []
  | e :: rest => e.pieces ++ comma rest.isEmpty ++ expressionsPieces rest

/-- The pieces of an element; a hole has none. -/
def Element.pieces : Element → List Piece
  | .hole => []
  | .value value => value.pieces

/-- The pieces of elements with commas between them; a hole at the end has a comma of its own. -/
def elementsPieces : List Element → List Piece
  | [] => []
  | [.hole] => [sign ","]
  | e :: rest => e.pieces ++ comma rest.isEmpty ++ elementsPieces rest

/-- The pieces of a property. -/
def Property.pieces : Property → List Piece
  | .init key value => [mapped key.raw key.pos, sign ":", space] ++ value.pieces
  | .accessor kind key (.mk pos _ params body) =>
    [mapped kind.keyword pos, space, mapped key.raw key.pos] ++
      inParens (parameters params) ++ space :: inBraces (statementsPieces true body)

/-- The pieces of properties, each on a line of its own. -/
def propertiesPieces : List Property → List Piece
  | [] => []
  | p :: rest =>
    newline :: p.pieces ++ (if rest.isEmpty then [] else [sign ","]) ++ propertiesPieces rest

/-- The pieces of a function. -/
def Function.pieces : Function → List Piece
  | .mk pos id params body =>
    mapped "function" pos ::
      (match id with
        | none => []
        | some id => [space, name id]) ++
      inParens (parameters params) ++ space :: inBraces (statementsPieces true body)

/-- The pieces of a variable with its first value. -/
def Declarator.pieces : Declarator → List Piece
  | .bare id => [name id]
  | .init id pos value => [name id, space, mapped "=" pos, space] ++ value.pieces

/-- The pieces of variables with commas between them. -/
def declaratorsPieces : List Declarator → List Piece
  | [] => []
  | d :: rest => d.pieces ++ comma rest.isEmpty ++ declaratorsPieces rest

/-- The pieces of the first part of a `for` statement. -/
def ForInit.pieces : ForInit → List Piece
  | .declarations pos declarators => mapped "var" pos :: declaratorsPieces declarators
  | .expression expression => expression.pieces

/-- The pieces of a clause of `switch`. -/
def SwitchClause.pieces (last : Bool) : SwitchClause → List Piece
  | .mk test body =>
    newline ::
      (match test with
        | none => [sign "default"]
        | some test => sign "case" :: space :: test.pieces) ++
      sign ":" :: indent :: statementsPieces last body ++ [dedent]

/-- The pieces of the clauses of `switch`; only the last statement of the last clause is the
last one of a list. -/
def clausesPieces : List SwitchClause → List Piece
  | [] => []
  | clause :: rest => clause.pieces rest.isEmpty ++ clausesPieces rest

/-- The pieces of the handler of `try`. -/
def CatchClause.pieces : CatchClause → List Piece
  | .mk param body =>
    [space, sign "catch", space] ++ inParens [name param] ++
      space :: inBraces (statementsPieces true body)

/-- The pieces of a statement, which may be the `last` one of a list. -/
def Statement.pieces (last : Bool) : Statement → List Piece
  | .block body => inBraces (statementsPieces true body)
  | .declarations pos declarators =>
    mapped "var" pos :: declaratorsPieces declarators ++ [terminator last]
  | .empty => [sign ";"]
  | .expression expression => expression.pieces ++ [terminator last]
  | .ifElse pos test consequent alternate =>
    mapped "if" pos :: space :: inParens test.pieces ++
      match alternate with
      | none => consequent.bodyPieces (consequent.pieces last)
      | some alternate =>
        consequent.bodyPieces (consequent.pieces false) ++
          [consequent.afterBody, sign "else"] ++
          if alternate.isIf then space :: alternate.pieces last
          else alternate.bodyPieces (alternate.pieces last)
  | .doWhile pos body test =>
    mapped "do" pos :: body.bodyPieces (body.pieces false) ++
      [body.afterBody, sign "while", space] ++ inParens test.pieces ++ [terminator last]
  | .whileDo pos test body =>
    mapped "while" pos :: space :: inParens test.pieces ++ body.bodyPieces (body.pieces last)
  | .forLoop pos init test update body =>
    mapped "for" pos :: space ::
      inParens
        ((match init with
          | none => []
          | some init => init.pieces) ++
        sign ";" ::
        (match test with
          | none => []
          | some test => space :: test.pieces) ++
        sign ";" ::
        (match update with
          | none => []
          | some update => space :: update.pieces)) ++
      body.bodyPieces (body.pieces last)
  | .forIn pos left right body =>
    mapped "for" pos :: space ::
      inParens (left.pieces ++ [space, sign "in", space] ++ right.pieces) ++
      body.bodyPieces (body.pieces last)
  | .jump kind pos label =>
    mapped kind.keyword pos ::
      (match label with
        | none => []
        | some label => [space, mapped label.name label.pos]) ++
      [terminator last]
  | .returnValue pos argument =>
    mapped "return" pos ::
      (match argument with
        | none => []
        | some argument => space :: argument.pieces) ++
      [terminator last]
  | .withObject pos object body =>
    mapped "with" pos :: space :: inParens object.pieces ++ body.bodyPieces (body.pieces last)
  | .switch pos discriminant clauses =>
    mapped "switch" pos :: space :: inParens discriminant.pieces ++
      [space, sign "\x7b", indent] ++ clausesPieces clauses ++
      dedent :: (if clauses.isEmpty then [] else [newline]) ++ [sign "\x7d"]
  | .labeled label body =>
    [mapped label.name label.pos, sign ":", space] ++ body.pieces last
  | .throwValue pos argument =>
    mapped "throw" pos :: space :: argument.pieces ++ [terminator last]
  | .tryCatch pos body handler finalizer =>
    mapped "try" pos :: space :: inBraces (statementsPieces true body) ++
      (match handler with
        | none => []
        | some handler => handler.pieces) ++
      (match finalizer with
        | none => []
        | some finalizer =>
          [space, sign "finally", space] ++ inBraces (statementsPieces true finalizer))
  | .debugger pos => [mapped "debugger" pos, terminator last]
  | .function function => function.pieces

/-- The pieces of statements, each on a line of its own; `last` tells that nothing follows the
list. -/
def statementsPieces (last : Bool) : List Statement → List Piece
  | [] => []
  | s :: rest =>
    newline :: s.pieces (last && rest.isEmpty) ++ statementsPieces last rest

end

/-- The pieces of a program: its statements, each with a line end behind it. -/
def Program.pieces (program : Program) : List Piece :=
  go program.body
where
  /-- The pieces of the remaining statements. -/
  go : List Statement → List Piece
    | [] => []
    | s :: rest => s.pieces rest.isEmpty ++ newline :: go rest

end EcmaPress

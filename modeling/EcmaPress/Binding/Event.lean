import EcmaPress.Tree

/-!
# Binding events

What a program does to names, as one list in the order of a walk over the tree: scopes that open
and close, names that are bound and names that are used. Whatever else a tree holds, such as
labels, member names and property keys, leaves no trace here.
-/

namespace EcmaPress

/-- What opens a scope. The scope of a handler holds only its parameter: variables that are
declared inside it belong to the function around it. -/
inductive ScopeKind where
  | function
  | handler
deriving DecidableEq, Repr

/-- One step in the life of the names of a program. -/
inductive BindingEvent where
  | enter (kind : ScopeKind)
  | leave
  /-- A name is bound in the current scope and occurs there. -/
  | bind (id : Identifier)
  /-- A name is bound in the nearest scope of a function, or in the global scope, and occurs in
  the current one. -/
  | hoist (id : Identifier)
  /-- A name occurs. -/
  | use (id : Identifier)
  /-- Names are looked up by their spelling from here on, in the current scope and in all
  scopes around it. -/
  | lookUp
deriving DecidableEq, Repr

open BindingEvent

/-- Whether an expression is the plain name `eval`. -/
def Expression.isEval : Expression → Bool
  | .identifier id => id.name == "eval"
  | _ => false

/-- The events of a scope around the events inside it. -/
def BindingEvent.scope (kind : ScopeKind) (inside : List BindingEvent) : List BindingEvent :=
  enter kind :: inside ++ [leave]

mutual

/-- The events of an expression. Calling `eval` by its name looks names up. -/
def Expression.events : Expression → List BindingEvent
  | .thisValue _ | .literal .. => []
  | .identifier id => [use id]
  | .array _ elements => elementsEvents elements
  | .object _ properties => propertiesEvents properties
  | .function function => function.events
  | .paren _ inside => inside.events
  | .unary _ _ argument | .preUpdate _ _ argument | .postUpdate _ _ argument => argument.events
  | .binary _ _ left right | .assign _ _ left right => left.events ++ right.events
  | .conditional test consequent alternate =>
    test.events ++ consequent.events ++ alternate.events
  | .call callee arguments =>
    (if callee.isEval then [lookUp] else []) ++ callee.events ++ expressionsEvents arguments
  | .newBare _ callee => callee.events
  | .newCall _ callee arguments => callee.events ++ expressionsEvents arguments
  | .member object _ => object.events
  | .index object property => object.events ++ property.events
  | .sequence expressions => expressionsEvents expressions

/-- The events of expressions in order. -/
def expressionsEvents : List Expression → List BindingEvent
  | [] => []
  | e :: rest => e.events ++ expressionsEvents rest

/-- The events of an element of an array. -/
def Element.events : Element → List BindingEvent
  | .hole => []
  | .value value => value.events

/-- The events of the elements of an array. -/
def elementsEvents : List Element → List BindingEvent
  | [] => []
  | e :: rest => e.events ++ elementsEvents rest

/-- The events of a property of an object. -/
def Property.events : Property → List BindingEvent
  | .init _ value => value.events
  | .accessor _ _ function => function.events

/-- The events of the properties of an object. -/
def propertiesEvents : List Property → List BindingEvent
  | [] => []
  | p :: rest => p.events ++ propertiesEvents rest

/-- The events of a function expression or an accessor: its own name, if it has one, is bound
inside it. -/
def Function.events : Function → List BindingEvent
  | .mk _ id params body =>
    scope .function (id.toList.map bind ++ params.map bind ++ statementsEvents body)

/-- The events of a function declaration: its name is bound outside it. -/
def Function.declarationEvents : Function → List BindingEvent
  | .mk _ id params body =>
    id.toList.map hoist ++ scope .function (params.map bind ++ statementsEvents body)

/-- The events of a variable with its first value. -/
def Declarator.events : Declarator → List BindingEvent
  | .bare id => [hoist id]
  | .init id _ value => hoist id :: value.events

/-- The events of variables in order. -/
def declaratorsEvents : List Declarator → List BindingEvent
  | [] => []
  | d :: rest => d.events ++ declaratorsEvents rest

/-- The events of the first part of a `for` statement. -/
def ForInit.events : ForInit → List BindingEvent
  | .declarations _ declarators => declaratorsEvents declarators
  | .expression expression => expression.events

/-- The events of a clause of `switch`. -/
def SwitchClause.events : SwitchClause → List BindingEvent
  | .mk test body =>
    (match test with
      | none => []
      | some test => test.events) ++
      statementsEvents body

/-- The events of the clauses of `switch`. -/
def clausesEvents : List SwitchClause → List BindingEvent
  | [] => []
  | clause :: rest => clause.events ++ clausesEvents rest

/-- The events of the handler of `try`. -/
def CatchClause.events : CatchClause → List BindingEvent
  | .mk param body => scope .handler (bind param :: statementsEvents body)

/-- The events of a statement. The body of a loop comes before its condition, and the statement
`with` looks names up once its object is known. -/
def Statement.events : Statement → List BindingEvent
  | .block body => statementsEvents body
  | .declarations _ declarators => declaratorsEvents declarators
  | .empty | .debugger _ | .jump .. => []
  | .expression expression => expression.events
  | .ifElse _ test consequent alternate =>
    test.events ++ consequent.events ++
      match alternate with
      | none => []
      | some alternate => alternate.events
  | .doWhile _ body test | .whileDo _ test body => body.events ++ test.events
  | .forLoop _ init test update body =>
    (match init with
      | none => []
      | some init => init.events) ++
      (match test with
        | none => []
        | some test => test.events) ++
      (match update with
        | none => []
        | some update => update.events) ++
      body.events
  | .forIn _ left right body => left.events ++ right.events ++ body.events
  | .returnValue _ argument =>
    match argument with
    | none => []
    | some argument => argument.events
  | .withObject _ object body => object.events ++ lookUp :: body.events
  | .switch _ discriminant clauses => discriminant.events ++ clausesEvents clauses
  | .labeled _ body => body.events
  | .throwValue _ argument => argument.events
  | .tryCatch _ body handler finalizer =>
    statementsEvents body ++
      (match handler with
        | none => []
        | some handler => handler.events) ++
      (match finalizer with
        | none => []
        | some finalizer => statementsEvents finalizer)
  | .function function => function.declarationEvents

/-- The events of statements in order. -/
def statementsEvents : List Statement → List BindingEvent
  | [] => []
  | s :: rest => s.events ++ statementsEvents rest

end

/-- The events of a program. -/
def Program.events (program : Program) : List BindingEvent :=
  statementsEvents program.body

end EcmaPress

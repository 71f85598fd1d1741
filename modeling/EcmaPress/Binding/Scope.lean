import EcmaPress.Binding.Event

/-!
# Scopes and occurrences

The scopes of a program, numbered in the order in which they open, with the names that each one
binds, and the occurrences of names, each with the chain of scopes that it sees. Scope 0 is the
global one.
-/

namespace EcmaPress

/-- A scope: its kind, which the global scope lacks, the names that it binds in the order of
their first binding, and whether names may be looked up in it by their spelling. -/
structure Scope where
  kind : Option ScopeKind
  bound : List String := []
  dynamic : Bool := false
deriving DecidableEq, Repr, Inhabited

/-- An occurrence of a name, with the numbers of the scopes that it sees, innermost first. -/
structure Occurrence where
  id : Identifier
  chain : List Nat
deriving DecidableEq, Repr

/-- The scopes and occurrences of a program, or of the part of it that has been walked. The
`chain` holds the scopes that are still open, innermost first. -/
structure Scoping where
  scopes : Array Scope := #[⟨none, [], false⟩]
  occurrences : Array Occurrence := #[]
  chain : List Nat := [0]
deriving DecidableEq, Repr

namespace Scope

/-- Whether variables pass by this scope to the one around it. -/
def isHandler (scope : Scope) : Bool :=
  scope.kind == some .handler

/-- Binds a name, which changes nothing if the name is bound already. -/
def bind (scope : Scope) (name : String) : Scope :=
  if scope.bound.contains name then scope else { scope with bound := scope.bound ++ [name] }

end Scope

namespace Scoping

/-- The names that are bound in a scope. -/
def bound (s : Scoping) (scope : Nat) : List String :=
  match s.scopes[scope]? with
  | none => []
  | some scope => scope.bound

/-- Binds a name in the first scope of a list. -/
def bindIn (s : Scoping) (chain : List Nat) (name : String) : Scoping :=
  match chain with
  | [] => s
  | scope :: _ => { s with scopes := s.scopes.modify scope (·.bind name) }

/-- The open scopes from the nearest one on that receives variables. -/
def variableChain (s : Scoping) : List Nat :=
  s.chain.dropWhile fun scope => s.scopes[scope]?.any Scope.isHandler

/-- Records an occurrence in the current scope. -/
def occur (s : Scoping) (id : Identifier) : Scoping :=
  { s with occurrences := s.occurrences.push ⟨id, s.chain⟩ }

/-- The scopes and occurrences after one more event. -/
def step (s : Scoping) : BindingEvent → Scoping
  | .enter kind =>
    { s with scopes := s.scopes.push ⟨some kind, [], false⟩, chain := s.scopes.size :: s.chain }
  | .leave => { s with chain := s.chain.tail }
  | .bind id => (s.bindIn s.chain id.name).occur id
  | .hoist id => (s.bindIn s.variableChain id.name).occur id
  | .use id => s.occur id
  | .lookUp =>
    { s with
      scopes := s.chain.foldl (fun scopes i => scopes.modify i ({ · with dynamic := true }))
        s.scopes }

/-- The scopes and occurrences of a list of events. -/
def ofEvents (events : List BindingEvent) : Scoping :=
  events.foldl step {}

/-- The scope of a chain that binds a name, which is the innermost one that does. -/
def resolve (s : Scoping) (chain : List Nat) (name : String) : Option Nat :=
  chain.find? fun scope => (s.bound scope).contains name

end Scoping

/-- The scopes and occurrences of a program. -/
def Program.scoping (program : Program) : Scoping :=
  .ofEvents program.events

end EcmaPress

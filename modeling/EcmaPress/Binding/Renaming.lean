import EcmaPress.Binding.Scope
import EcmaPress.Binding.ShortName
import Std.Data.TreeMap

/-!
# Renaming

Every name that is bound in a function or in a handler gets a short name, unless names may be
looked up by their spelling in its scope. A scope avoids the names, as they are after renaming,
that occur inside it and are bound outside it; hence a new name hides no name that is used.
-/

namespace EcmaPress

/-- The new names of one scope, for the names that it binds. -/
abbrev NameTable := List (String × String)

/-- New names by the place of the occurrence that gets them. -/
abbrev Renames := Std.TreeMap Nat String

namespace Scoping

/-- The occurrences with the scope that each one is bound in. -/
def resolved (s : Scoping) : List (Occurrence × Option Nat) :=
  s.occurrences.toList.map fun o => (o, s.resolve o.chain o.id.name)

/-- What a name bound in the given scope is called after renaming. Tables of scopes that are
not known yet leave it unchanged. -/
def newName (tables : Array NameTable) (scope : Option Nat) (name : String) : String :=
  match scope with
  | none => name
  | some scope => ((tables[scope]?.getD []).lookup name).getD name

/-- The names, each with the scope that binds it, that occur inside a scope and are bound
outside it. -/
def outer (resolved : List (Occurrence × Option Nat)) (scope : Nat) :
    List (Option Nat × String) :=
  (resolved.filter fun (o, binding) =>
    (o.chain.takeWhile fun i => some i != binding).contains scope).map
      fun (o, binding) => (binding, o.id.name)

/-- The new names of a scope, when the tables of the scopes before it are known. -/
def table (resolved : List (Occurrence × Option Nat)) (reserved : List String)
    (tables : Array NameTable) (scope : Scope) : NameTable :=
  if scope.kind.isNone || scope.dynamic then []
  else
    let avoided := (outer resolved tables.size).map fun (binding, name) =>
      newName tables binding name
    scope.bound.zip (freshNames ((reserved ++ avoided).eraseDups) scope.bound.length)

/-- The new names of all scopes. A scope comes after the ones around it, so the names that it
must avoid are known. -/
def tables (s : Scoping) (reserved : List String) : Array NameTable :=
  let resolved := s.resolved
  s.scopes.foldl (fun tables scope => tables.push (table resolved reserved tables scope)) #[]

/-- The occurrences that get a new name, by their place. -/
def renames (s : Scoping) (reserved : List String) : Renames :=
  let tables := s.tables reserved
  s.resolved.foldl
    (fun renames (o, binding) =>
      let new := newName tables binding o.id.name
      if new == o.id.name then renames else renames.insert o.id.pos.offset new)
    ∅

end Scoping

/-- The new names of a program, none of which is reserved. -/
def Program.obfuscate (program : Program) (reserved : List String) : Renames :=
  program.scoping.renames reserved

end EcmaPress

/-!
# Heights of patterns

Patterns nest, but only so deep. The height of a pattern counts its levels: a single character
has none, and a group, a class, a repetition, a row of several pieces and a choice between
branches have one more than the tallest of their parts.
-/

namespace EcmaPress.Pattern

/-- The levels that a pattern may have. -/
def maxHeight : Nat := 250

/-- The heights of pieces one behind the other: that of the last one, and the greatest of those
before it. -/
structure Row where
  last : Option Nat := none
  before : Option Nat := none
deriving DecidableEq, Repr

namespace Row

/-- A row with one piece more. -/
def push (row : Row) (height : Nat) : Row :=
  ⟨some height, row.last.map fun last => max last (row.before.getD 0)⟩

/-- The height of a row, which is a level of its own from two pieces on. -/
def height : Row → Nat
  | ⟨none, _⟩ => 0
  | ⟨some last, none⟩ => last
  | ⟨some last, some before⟩ => max last before + 1

end Row

/-- What is read of a group or of a whole pattern: the height of the branches before the last
one, and the pieces of that one. -/
structure Body where
  branches : Option Nat := none
  row : Row := {}
deriving DecidableEq, Repr

namespace Body

/-- A body with one piece more. -/
def push (body : Body) (height : Nat) : Body :=
  ⟨body.branches, body.row.push height⟩

/-- A body with one branch more, of which nothing is read. -/
def branch (body : Body) : Body :=
  ⟨some (max (body.branches.getD 0) body.row.height), {}⟩

/-- A body whose last piece is repeated. There is none without a piece. -/
def repeat? (body : Body) : Option Body :=
  body.row.last.map fun last => ⟨body.branches, ⟨some (last + 1), body.row.before⟩⟩

/-- The height of a body, to which a choice between branches adds a level. -/
def height (body : Body) : Nat :=
  match body.branches with
  | none => body.row.height
  | some branches => max branches body.row.height + 1

end Body
end EcmaPress.Pattern

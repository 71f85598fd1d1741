import EcmaPress.Grammar.Statement

/-!
# The grammar of programs

The levels of nesting are tied together here: the parsers that may nest `n + 1` levels deep are
the grammar over those that may nest `n` levels deep. `parse` reads a whole source text.
-/

namespace EcmaPress

/-- The deepest nesting of statements and expressions that is accepted. -/
def maxDepth : Nat := 256

namespace Inner

open EcmaPress.Parser

/-- The parsers below the deepest level, which refuse whatever stands there. -/
def exhausted : Inner where
  statement := fail .nestedTooDeep
  assignment := fun _ => fail .nestedTooDeep
  unary := fail .nestedTooDeep
  newExpression := fail .nestedTooDeep

/-- The grammar over the parsers of the next inner level. -/
def around (inner : Inner) : Inner where
  statement := Grammar.statement inner
  assignment := Grammar.assignment inner
  unary := Grammar.unary inner
  newExpression := Grammar.newExpression inner

/-- The parsers of what may still nest `depth` levels deep. -/
def ofDepth : Nat → Inner
  | 0 => exhausted
  | depth + 1 => (ofDepth depth).around

end Inner

/-- Statements up to the end of the text. -/
def Grammar.program : Parser Program := do
  let body ← statementsUntil (.ofDepth maxDepth) (·.isEnd)
  return ⟨body⟩

/-- Reads a program from a source text. An error tells the name of the source if it has one. -/
def parse (text : String) (source : Option String) : Except SyntaxError Program :=
  let result := do
    let c ← (Input.ofList text.toList).next
    let (program, _) ← Grammar.program c
    return program
  result.mapError fun error => { error with source }

end EcmaPress

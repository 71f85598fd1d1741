import EcmaPress.Token.Input
import EcmaPress.Tree

/-!
# Parsers

A parser reads tokens from a cursor and answers a value with the cursor behind it, or the error
that it met. `many` is the only loop without a bound of its own: it goes on while the text gets
shorter, so every parser ends.
-/

namespace EcmaPress

/-- A parser of values of type `α`. -/
abbrev Parser (α : Type) := StateT Cursor (Except SyntaxError) α

namespace Cursor

/-- A fault at the token of the cursor. -/
def errorHere (c : Cursor) (fault : Fault) : SyntaxError :=
  ⟨fault, c.token.pos, none⟩

/-- The error of a token that fits no rule. -/
def unexpected (c : Cursor) : SyntaxError :=
  if c.token.isEnd then c.errorHere .unexpectedEnd
  else c.errorHere (.unexpectedToken c.token.text)

end Cursor

namespace Parser

/-- The current token, which stays unread. -/
def peek : Parser Token := fun c => .ok (c.token, c)

/-- Reads the current token. -/
def advance : Parser Token := fun c =>
  match c.next with
  | .error e => .error e
  | .ok c' => .ok (c.token, c')

/-- Reads the text at the current token again as a regular expression, which becomes the
current token. -/
def rescanRegex : Parser Unit := fun c =>
  match c.asRegex with
  | .error e => .error e
  | .ok c' => .ok ((), c')

/-- Fails at the current token. -/
def fail {α : Type} (fault : Fault) : Parser α := fun c => .error (c.errorHere fault)

/-- Fails because no rule admits the current token. -/
def unexpected {α : Type} : Parser α := fun c => .error c.unexpected

/-- Reads the sign or word spelled `text`, which must stand here. -/
def expect (text : String) : Parser Token := do
  if (← peek).is text then advance else unexpected

/-- Reads the sign or word spelled `text` if it stands here, and tells whether it did. -/
def eat (text : String) : Parser Bool := do
  if (← peek).is text then
    let _ ← advance
    return true
  else
    return false

/-- Reads a name. -/
def identifier : Parser Identifier := do
  if (← peek).isIdentifier then
    let token ← advance
    return ⟨token.text, token.pos⟩
  else
    unexpected

/-- Reads items until `step` answers that there are no more. An item must make the text
shorter. -/
def many {α : Type} (step : Parser (Option α)) : Parser (List α) := fun c =>
  match step c with
  | .error e => .error e
  | .ok (none, c') => .ok ([], c')
  | .ok (some item, c') =>
    if c'.input.size < c.input.size then
      match many step c' with
      | .error e => .error e
      | .ok (items, c'') => .ok (item :: items, c'')
    else .error c'.unexpected
termination_by c => c.input.size

/-- Reads a comma and the item behind it, if a comma stands here. -/
def another {α : Type} (item : Parser α) : Parser (Option α) := do
  if ← eat "," then return some (← item) else return none

/-- Reads one or more items with commas between them. -/
def separated {α : Type} (item : Parser α) : Parser (List α) := do
  let first ← item
  let others ← many (another item)
  return first :: others

/-- Reads items in parentheses, with commas between them. There may be none. -/
def inParens {α : Type} (item : Parser α) : Parser (List α) := do
  let _ ← expect "("
  if ← eat ")" then
    return []
  else
    let items ← separated item
    let _ ← expect ")"
    return items

/-- Reads the end of a statement: a semicolon, or nothing where one may be left out, which is
before a closing brace, at the end of the text and behind the end of a line. -/
def semicolon : Parser Unit := do
  if ← eat ";" then
    return ()
  else
    let token ← peek
    if token.is "\x7d" || token.isEnd || token.newlineBefore then return () else unexpected

end Parser
end EcmaPress

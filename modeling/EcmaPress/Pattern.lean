import EcmaPress.Pattern.Bracket

/-!
# Patterns

The usual language of regular expressions, as far as it matters whether a text belongs to it:
`isPattern` tells patterns from other texts. A pattern is for a text without closing braces, so
what needs one of them is never part of it: counted repetitions and numbers or properties of
characters in braces. Properties by a single letter are not known either.
-/

namespace EcmaPress

namespace Pattern

/-- What is read of a pattern. -/
structure Reading where
  settings : Settings := {}
  body : Body := {}
  /-- Whether the last piece is a setting of flags, which cannot be repeated. -/
  behindFlags : Bool := false
  /-- What was read before each of the groups that are open, the innermost one first, with the
  settings that hold again behind it. -/
  outer : List (Settings × Body) := []
  /-- The names of groups. -/
  names : List (List Char) := []
deriving DecidableEq, Repr

/-- Whether a character may be one of a group's name, as the first one or a later one. -/
def isNameChar (first : Bool) (c : Char) : Bool :=
  c = '_' || isAlphabetic c || (!first && (isNumeric c || ['.', '[', ']'].contains c))

/-- Whether characters are the name of a group. -/
def isName : List Char → Bool
  | [] => false
  | first :: more => isNameChar true first && more.all (isNameChar false)

/-- Whether characters are flags, none of them given twice: those that are set and, behind a
hyphen, those that are not. -/
def areFlags (flags : List Char) : Bool :=
  flags.all (['i', 's', 'm', 'U', 'u', 'R', 'x', '-'].contains ·) && flags.Nodup &&
    flags.getLast? ≠ some '-'

namespace Reading

/-- One piece more. -/
def push (reading : Reading) (height : Nat) : Reading :=
  { reading with body := reading.body.push height, behindFlags := false }

/-- An atom more, if it is allowed. -/
def pushAtom? (reading : Reading) (atom : Atom) : Option Reading :=
  if atom.isAllowed reading.settings then some (reading.push 0) else none

/-- A group is opened, inside of which other settings hold. -/
def enter (reading : Reading) (inside : Settings) : Reading :=
  { reading with
    settings := inside, body := {}, behindFlags := false,
    outer := (reading.settings, reading.body) :: reading.outer }

/-- The innermost group is closed. -/
def leave? (reading : Reading) : Option Reading :=
  match reading.outer with
  | [] => none
  | (settings, body) :: outer =>
    some { reading with
      settings, outer, body := body.push (reading.body.height + 1), behindFlags := false }

/-- A group with a name is opened, from behind the sign in front of the name. No two groups have
the same name. -/
def enterNamed? (reading : Reading) (text : List Char) : Option (Reading × List Char) :=
  let name := text.takeWhile (· ≠ '>')
  match text.drop name.length with
  | '>' :: rest =>
    if isName name && !reading.names.contains name then
      some ({ reading.enter reading.settings with names := name :: reading.names }, rest)
    else none
  | _ => none

/-- Flags are set, for a group that is opened behind a colon or else up to the end of the group
that they stand in. -/
def set? (reading : Reading) (text : List Char) : Option (Reading × List Char) :=
  let flags := text.takeWhile fun c => c ≠ ':' && c ≠ ')'
  let settings := reading.settings.update flags
  if areFlags flags then
    match text.drop flags.length with
    | ':' :: rest => some (reading.enter settings, rest)
    | _ :: rest =>
      if flags.isEmpty then none
      else some ({ reading.push 0 with settings, behindFlags := true }, rest)
    | [] => none
  else none

/-- The text behind an opening parenthesis: the head of a group, or flags. -/
def enter? (reading : Reading) (text : List Char) : Option (Reading × List Char) :=
  match reading.settings.skip text with
  | '?' :: 'P' :: '<' :: rest => reading.enterNamed? rest
  | '?' :: '<' :: rest => reading.enterNamed? rest
  | '?' :: rest => reading.set? rest
  | rest => some (reading.enter reading.settings, rest)

/-- The last piece is repeated. A question mark behind the sign belongs to it. -/
def repeat? (reading : Reading) (rest : List Char) : Option (Reading × List Char) := do
  guard (!reading.behindFlags)
  let body ← reading.body.repeat?
  return ({ reading with body }, if rest.head? = some '?' then rest.drop 1 else rest)

/-- What a character adds to a reading, with what it needs of the text behind it, and what is
left of that. -/
def step? (reading : Reading) (c : Char) (rest : List Char) : Option (Reading × List Char) :=
  match c with
  | '(' => reading.enter? rest
  | ')' => reading.leave?.map (·, rest)
  | '|' => some ({ reading with body := reading.body.branch, behindFlags := false }, rest)
  | '[' => (bracketed? reading.settings rest).map fun (height, rest) => (reading.push height, rest)
  | '?' | '*' | '+' => reading.repeat? rest
  | '\x7b' => none
  | '\\' => do
    let (atom, rest) ← escaped? reading.settings rest
    return (← reading.pushAtom? atom, rest)
  | '.' => (reading.pushAtom? .any).map (·, rest)
  | '^' | '$' => (reading.pushAtom? (.place false)).map (·, rest)
  | c => (reading.pushAtom? (.char c false)).map (·, rest)

/-- A reading continued to the end of a text. Every step takes a character, so as many steps as
there are characters are enough. -/
def run? : Nat → Reading → List Char → Option Reading
  | 0, reading, _ => some reading
  | steps + 1, reading, text =>
    match reading.settings.skip text with
    | [] => some reading
    | c :: rest => do
      let (reading, rest) ← reading.step? c rest
      run? steps reading rest

end Reading
end Pattern

/-- Whether a text without closing braces is a pattern. -/
def isPattern (text : List Char) : Bool :=
  match Pattern.Reading.run? text.length {} text with
  | some reading => reading.outer.isEmpty && reading.body.height ≤ Pattern.maxHeight
  | none => false

end EcmaPress

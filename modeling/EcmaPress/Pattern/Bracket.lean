import EcmaPress.Pattern.Atom
import EcmaPress.Pattern.Height

/-!
# Classes in brackets

Members between brackets are characters, ranges of them, classes with a sign or a name, and
other classes in brackets. Two signs of the same kind, `&&`, `--` or `~~`, combine what stands
before them with what stands behind.
-/

namespace EcmaPress.Pattern

/-- What is read of a class in brackets: the height of what stands before the last operator, the
members behind it, and whether a hyphen would still be a member as one of the first. -/
structure Members where
  left : Option Nat := none
  row : Row := {}
  fresh : Bool := true
deriving DecidableEq, Repr

namespace Members

/-- A class with one member more. -/
def push (members : Members) (height : Nat) : Members :=
  ⟨members.left, members.row.push height, false⟩

/-- The height of what is between the brackets, to which each operator adds a level. -/
def height (members : Members) : Nat :=
  match members.left with
  | none => members.row.height
  | some left => max left members.row.height + 1

/-- A class with one operator more, behind which nothing is read. -/
def operate (members : Members) : Members :=
  ⟨some members.height, {}, false⟩

end Members

/-- The names of classes. -/
def classNames : List String :=
  ["alnum", "alpha", "ascii", "blank", "cntrl", "digit", "graph", "lower", "print", "punct",
    "space", "upper", "word", "xdigit"]

/-- Behind a bracket, a class with a name between colons: whether all but it is meant, and what
is left of the text. -/
def named? : List Char → Option (Bool × List Char)
  | ':' :: text =>
    let negated := text.head? = some '^'
    let text := if negated then text.drop 1 else text
    let name := text.takeWhile (· ≠ ':')
    match text.drop name.length with
    | ':' :: ']' :: rest =>
      if classNames.contains (String.ofList name) then some (negated, rest) else none
    | _ => none
  | _ => none

/-- Whether a class with a name may be a member, or all but it. -/
def allowsNamed (settings : Settings) (negated : Bool) : Bool :=
  if settings.unicode then !settings.anyCase else !negated

/-- What is left of a text behind a bracket and the sign for all but the members. Over bytes,
all but some is never allowed. -/
def opened? (settings : Settings) (text : List Char) : Option (List Char) :=
  match settings.skip text with
  | '^' :: rest => if settings.unicode then some rest else none
  | text => some text

/-- The atom that a character begins among members, where most signs stand for themselves, and
what is left of the text. -/
def memberAtom? (settings : Settings) (c : Char) (rest : List Char) :
    Option (Atom × List Char) :=
  if c = '\\' then escaped? settings rest else some (.char c false, rest)

/-- What is left of a text behind a member that a character begins. A hyphen makes a range of it
if neither the closing bracket nor another hyphen comes next; the ends of a range are characters
in their order. -/
def member? (settings : Settings) (c : Char) (rest : List Char) : Option (List Char) := do
  let (first, behind) ← memberAtom? settings c rest
  guard (first.isMember settings)
  match settings.skip behind with
  | '-' :: more =>
    let ahead := settings.ahead more
    if ahead = some ']' || ahead = some '-' then return '-' :: more
    else
      match first, settings.skip more with
      | .char a _, d :: more =>
        match ← memberAtom? settings d more with
        | (.char b byte, behind) =>
          guard (a ≤ b && (Atom.char b byte).isMember settings)
          return behind
        | _ => none
      | _, _ => none
  | behind => return behind

/-- The height of the innermost of the classes that are open, with what surrounds it, and what is
left of a text behind the outermost one. Every step takes a character, so as many steps as there
are characters are enough. -/
def closed? (settings : Settings) :
    Nat → Members → List Members → List Char → Option (Nat × List Char)
  | 0, _, _, _ => none
  | steps + 1, inner, outer, text =>
    match settings.skip text with
    | [] => none
    | '[' :: rest =>
      match named? rest with
      | some (negated, rest) =>
        if allowsNamed settings negated then closed? settings steps (inner.push 0) outer rest
        else none
      | none => do closed? settings steps {} (inner :: outer) (← opened? settings rest)
    | c :: rest =>
      if inner.fresh && (c = '-' || (c = ']' && inner.row.last.isNone)) then
        if (Atom.char c false).isMember settings then
          closed? settings steps { inner.push 0 with fresh := c = '-' } outer rest
        else none
      else if c = ']' then
        match outer with
        | [] => some (inner.height + 1, rest)
        | around :: outer => closed? settings steps (around.push (inner.height + 1)) outer rest
      else if ['&', '-', '~'].contains c && rest.head? = some c then
        closed? settings steps inner.operate outer (rest.drop 1)
      else do closed? settings steps (inner.push 0) outer (← member? settings c rest)

/-- The height of a class and what is left of a text behind it, from behind its bracket. -/
def bracketed? (settings : Settings) (text : List Char) : Option (Nat × List Char) := do
  let inside ← opened? settings text
  closed? settings inside.length {} [] inside

end EcmaPress.Pattern

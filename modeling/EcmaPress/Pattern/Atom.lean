import EcmaPress.Text.CharClass

/-!
# Atoms of patterns

The smallest pieces of a pattern: characters, the classes and places that have a sign of their
own, and what a backslash makes of the next characters. Which atoms are allowed depends on the
settings. Nothing is known about cases and properties of characters beyond the basic ones, so a
pattern over all characters may not ask for them; a pattern over bytes may not match a part of a
character.
-/

namespace EcmaPress.Pattern

/-- What the flags of a pattern set. Of the other flags nothing depends on. -/
structure Settings where
  /-- Small and capital letters are the same. -/
  anyCase : Bool := false
  /-- The pattern is over all characters, and not over bytes. -/
  unicode : Bool := true
  /-- White space and comments are skipped. -/
  spaced : Bool := false
deriving DecidableEq, Repr

/-- A text from its first character on that is neither white space nor in a comment. A comment
begins with a number sign and ends with its line. -/
def skipSpace (inComment : Bool) : List Char → List Char
  | [] => []
  | c :: rest =>
    if inComment then skipSpace (c ≠ '\n') rest
    else if isWhiteSpace c then skipSpace false rest
    else if c = '#' then skipSpace true rest
    else c :: rest

namespace Settings

/-- A text without what the settings skip at its beginning. -/
def skip (settings : Settings) (text : List Char) : List Char :=
  if settings.spaced then skipSpace false text else text

/-- The character that decides whether a hyphen in front of a text is one of a range. Where
space is skipped, that is also done behind a number sign, which is left out itself. -/
def ahead (settings : Settings) (text : List Char) : Option Char :=
  if settings.spaced then
    let behind :=
      match text.dropWhile isWhiteSpace with
      | '#' :: comment => comment.dropWhile isWhiteSpace
      | behind => behind
    behind.head? <|> text.head?
  else text.head?

/-- The settings under more flags. A hyphen unsets the flags behind it. -/
def update (settings : Settings) (flags : List Char) : Settings :=
  let value (flag : Char) (otherwise : Bool) :=
    if flags.contains flag then (flags.takeWhile (· ≠ '-')).contains flag else otherwise
  ⟨value 'i' settings.anyCase, value 'u' settings.unicode, value 'x' settings.spaced⟩

end Settings

/-- A piece of a pattern that has no parts. -/
inductive Atom where
  /-- A character, and whether it is given as a byte. -/
  | char (c : Char) (byte : Bool)
  /-- The digits, the white space or the characters of words, or all but them. -/
  | shorthand (negated : Bool)
  /-- Any character of a line. -/
  | any
  /-- A place between characters: an end of the text or a line, or else one of a word. -/
  | place (ofWord : Bool)
deriving DecidableEq, Repr

namespace Atom

/-- Whether an atom may stand outside of classes. -/
def isAllowed (settings : Settings) : Atom → Bool
  | .char c byte =>
    if settings.unicode then !settings.anyCase else !byte || c ≤ '\x7f'
  | .shorthand negated => !settings.unicode && !negated
  | .any => settings.unicode
  | .place ofWord => !settings.unicode || !ofWord

/-- Whether an atom may be a member of a class. -/
def isMember (settings : Settings) : Atom → Bool
  | .char c _ => if settings.unicode then !settings.anyCase else c ≤ '\x7f'
  | .shorthand negated => !settings.unicode && !negated
  | .any | .place _ => false

end Atom

/-- The value of a hexadecimal digit. -/
def hexValue (c : Char) : Nat :=
  if c.isDigit then c.toNat - '0'.toNat
  else if c ≤ 'F' then c.toNat - 'A'.toNat + 10
  else c.toNat - 'a'.toNat + 10

/-- The number whose first digits are `value` and of which so many more are to be read. -/
def hexNumber? (settings : Settings) : Nat → Nat → List Char → Option (Nat × List Char)
  | 0, value, text => some (value, text)
  | _ + 1, _, [] => none
  | digits + 1, value, c :: rest =>
    if isHexDigit c then hexNumber? settings digits (16 * value + hexValue c) (settings.skip rest)
    else none

/-- The character with a number of so many hexadecimal digits. -/
def numbered? (settings : Settings) (digits : Nat) (text : List Char) :
    Option (Atom × List Char) := do
  let (n, rest) ← hexNumber? settings digits 0 (settings.skip text)
  if n.isValidChar then return (.char (Char.ofNat n) (digits = 2), rest) else none

/-- The characters without a shape that have a letter. -/
def controls : List (Char × Char) :=
  [('a', '\x07'), ('f', '\x0c'), ('n', '\n'), ('r', '\r'), ('t', '\t'), ('v', '\x0b')]

/-- The atom that a backslash makes of the text behind it, and what is left of the text. Letters
and digits without a meaning stand for nothing, and other basic characters for themselves. -/
def escaped? (settings : Settings) : List Char → Option (Atom × List Char)
  | [] => none
  | 'x' :: rest => numbered? settings 2 rest
  | 'u' :: rest => numbered? settings 4 rest
  | 'U' :: rest => numbered? settings 8 rest
  | c :: rest =>
    if ['d', 's', 'w'].contains c then some (.shorthand false, rest)
    else if ['D', 'S', 'W'].contains c then some (.shorthand true, rest)
    else if ['A', 'z'].contains c then some (.place false, rest)
    else if ['b', 'B', '<', '>'].contains c then some (.place true, rest)
    else
      match controls.lookup c with
      | some control => some (.char control false, rest)
      | none => if c ≤ '\x7f' && !c.isAlphanum then some (.char c false, rest) else none

end EcmaPress.Pattern

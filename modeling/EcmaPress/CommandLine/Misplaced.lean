import EcmaPress.CommandLine.Flag

/-!
# Inputs behind flags

Inputs have to stand before every flag, so that a forgotten value of a flag never turns an input
into an output. A word behind a flag may still be the value of the flag just before it.
-/

namespace EcmaPress

/-- Whether a word, behind some flag, may be a value of it. -/
def Arity.ofWord : Word → Arity
  | .long name none => (Flag.ofLong? name).elim .noValue Flag.arity
  | .shorts letters => ofLetters letters
  | .long _ (some _) | .mark | .plain _ => .noValue
where
  /-- The arity of the last of some letters, unless one before it takes the rest as a value. -/
  ofLetters : List Char → Arity
    | [] => .noValue
    | c :: rest =>
      match (Flag.ofShort? c).elim .noValue Flag.arity with
      | .noValue => ofLetters rest
      | arity => if rest.isEmpty then arity else .noValue

/-- Whether a word is a flag: it begins with a hyphen, is longer, and is not the mark behind
which all words are inputs. -/
def isFlag (text : String) : Bool :=
  text.toList.head? = some '-' && 1 < text.length && text ≠ "--"

/-- The arity of a flag as it stands, which is that of no value if it has an equals sign. -/
def arityOf (text : String) : Arity :=
  if text.contains '=' then .noValue else .ofWord (.ofString text)

/-- The first input behind a flag, with the first flag. `flag` is the first flag so far, and
`arity` that of the word just before. -/
def misplaced? (flag : Option String) (arity : Arity) : List String → Option (String × String)
  | [] => none
  | word :: rest =>
    if arity = .required || (arity = .optional && word.toList.head? ≠ some '-') then
      misplaced? flag .noValue rest
    else if word = "--" then
      match flag, rest with
      | some flag, input :: _ => some (input, flag)
      | _, _ => none
    else if isFlag word then misplaced? (flag <|> some word) (arityOf word) rest
    else
      match flag with
      | some flag => some (word, flag)
      | none => misplaced? none .noValue rest

end EcmaPress

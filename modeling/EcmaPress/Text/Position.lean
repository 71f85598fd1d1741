/-!
# Positions in a source text

A position is a character offset together with the line and column that a reader would give
it. Lines end where ECMAScript says that they do; a carriage return and the line feed behind it
are one line end. Lines and columns are counted in 32 bits, so that the last number is followed by
zero.
-/

namespace EcmaPress

/-- The characters that end a line of a source text. -/
def isLineTerminator (c : Char) : Bool :=
  c == '\n' || c == '\r' || c == '\u2028' || c == '\u2029'

/-- A place in a source text: the number of characters before it, and its line and column, both
counted from one. -/
structure Position where
  offset : Nat := 0
  line : UInt32 := 1
  column : UInt32 := 1
deriving DecidableEq, Repr, Inhabited

namespace Position

/-- The place where a text begins. -/
def start : Position := {}

/-- The place behind one character. -/
def step (p : Position) (c : Char) : Position :=
  if isLineTerminator c then ⟨p.offset + 1, p.line + 1, 1⟩
  else ⟨p.offset + 1, p.line, p.column + 1⟩

/-- The place behind a stretch of text that begins at `p`. -/
def after : Position → List Char → Position
  | p, [] => p
  | p, '\r' :: '\n' :: rest => after ⟨p.offset + 2, p.line + 1, 1⟩ rest
  | p, c :: rest => after (p.step c) rest

end Position
end EcmaPress

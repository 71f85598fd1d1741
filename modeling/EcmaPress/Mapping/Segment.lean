import EcmaPress.Text.Position

/-!
# Segments of a source map

A segment ties a place of a generated text to a place of a source. Places of source maps count
lines and columns from zero, in 32 bits like positions.
-/

namespace EcmaPress

/-- A line and a column, both counted from zero. -/
structure Place where
  line : UInt32 := 0
  column : UInt32 := 0
deriving DecidableEq, Repr, Inhabited

namespace Place

/-- A number that is counted from one, counted from zero. Where the count has come round to zero,
there it stays. -/
def fromZero (n : UInt32) : UInt32 :=
  if n = 0 then 0 else n - 1

/-- The place of a source map that a position is at. -/
def ofPosition (pos : Position) : Place :=
  ⟨fromZero pos.line, fromZero pos.column⟩

/-- The place behind a stretch of text that begins at `p`. A carriage return and the line feed
behind it end one line. -/
def after : Place → List Char → Place
  | p, [] => p
  | p, '\r' :: '\n' :: rest => after ⟨p.line + 1, 0⟩ rest
  | p, c :: rest =>
    if c == '\n' || c == '\r' then after ⟨p.line + 1, 0⟩ rest
    else after ⟨p.line, p.column + 1⟩ rest

end Place

/-- A generated token, the source token that it was made from, and the name of the source token
where the generated one is called otherwise. -/
structure Segment where
  generated : Place
  origin : Place
  name : Option String := none
deriving DecidableEq, Repr

end EcmaPress

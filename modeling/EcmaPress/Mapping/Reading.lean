import EcmaPress.Mapping.Mappings

/-!
# Reading mappings

The mappings of a source map, version 3, as a reader takes them: semicolons part lines, commas
part the segments of a line, and a segment is four or five numbers of variable length. They are
differences to the segment before, but for the column, which starts at zero on every line. What
cannot be read in this way is refused.
-/

namespace EcmaPress

/-- The digit that a character stands for. -/
def Base64.digit? (c : Char) : Option Nat :=
  if 'A' ≤ c ∧ c ≤ 'Z' then some (c.toNat - 'A'.toNat)
  else if 'a' ≤ c ∧ c ≤ 'z' then some (c.toNat - 'a'.toNat + 26)
  else if '0' ≤ c ∧ c ≤ '9' then some (c.toNat - '0'.toNat + 52)
  else if c = '+' then some 62
  else if c = '/' then some 63
  else none

namespace Vlq

/-- The natural number at the front of a text, and the text behind it. A digit of 32 or more
tells that another one follows. -/
def natural? : List Char → Option (Nat × List Char)
  | [] => none
  | c :: rest => do
    let digit ← Base64.digit? c
    if digit < 32 then return (digit, rest)
    let (high, rest) ← natural? rest
    return (digit - 32 + 32 * high, rest)

/-- The whole number whose sign is the lowest bit of a natural one. -/
def unfolded (n : Nat) : Int :=
  if n % 2 = 0 then (n / 2 : Nat) else -(n / 2 : Nat)

theorem natural?_length {text rest : List Char} {n : Nat} (h : natural? text = some (n, rest)) :
    rest.length < text.length := by
  induction text generalizing n with
  | nil => cases h
  | cons c text ih =>
    simp only [natural?, Option.bind_eq_bind, Option.bind_eq_some_iff] at h
    obtain ⟨digit, -, h⟩ := h
    split at h
    · obtain ⟨-, rfl⟩ := Prod.mk.inj (Option.some.inj h)
      exact Nat.lt_succ_self _
    · obtain ⟨p, hp, h⟩ := Option.bind_eq_some_iff.mp h
      obtain ⟨-, rfl⟩ := Prod.mk.inj (Option.some.inj h)
      exact Nat.lt_succ_of_lt (ih hp)

/-- The whole numbers that make a text. -/
def integers? (text : List Char) : Option (List Int) :=
  if text.isEmpty then some []
  else
    match hread : natural? text with
    | none => none
    | some (n, rest) =>
      have := natural?_length hread
      (integers? rest).map (unfolded n :: ·)
termination_by text.length

end Vlq

/-- The numbers that the next segment is read relative to. -/
structure MappingReader where
  column : Nat := 0
  source : Nat := 0
  originLine : Nat := 0
  originColumn : Nat := 0
  name : Nat := 0
deriving DecidableEq, Repr

namespace MappingReader

/-- A number by its difference to the one before. There are no negative ones. -/
def moved? (old : Nat) (difference : Int) : Option Nat :=
  (old + difference).toNat?

/-- The place of a line and a column. There are no places beyond 32 bits. -/
def place? (line column : Nat) : Option Place :=
  if line < UInt32.size ∧ column < UInt32.size then some ⟨.ofNat line, .ofNat column⟩ else none

/-- The segment that numbers stand for on a line, and the reader behind it. -/
def entry? (names : List String) (line : Nat) (reader : MappingReader) :
    List Int → Option (MappingReader × Entry)
  | column :: source :: originLine :: originColumn :: more => do
    let column ← moved? reader.column column
    let source ← moved? reader.source source
    let originLine ← moved? reader.originLine originLine
    let originColumn ← moved? reader.originColumn originColumn
    let generated ← place? line column
    let origin ← place? originLine originColumn
    match more with
    | [] =>
      return (⟨column, source, originLine, originColumn, reader.name⟩,
        ⟨source, generated, origin, none⟩)
    | [name] =>
      let name ← moved? reader.name name
      let text ← names[name]?
      return (⟨column, source, originLine, originColumn, name⟩,
        ⟨source, generated, origin, some text⟩)
    | _ => none
  | _ => none

/-- The segments of a line, and the reader behind them. -/
def entries? (names : List String) (line : Nat) (reader : MappingReader) :
    List (List Char) → Option (MappingReader × List Entry)
  | [] => some (reader, [])
  | field :: fields => do
    let numbers ← Vlq.integers? field
    let (reader, entry) ← reader.entry? names line numbers
    let (reader, entries) ← reader.entries? names line fields
    return (reader, entry :: entries)

/-- The segments of lines, the first of which has the given number. An empty line has none. -/
def lines? (names : List String) (line : Nat) (reader : MappingReader) :
    List (List Char) → Option (List Entry)
  | [] => some []
  | text :: texts => do
    let fields := if text.isEmpty then [] else text.splitOn ','
    let (reader, entries) ← { reader with column := 0 }.entries? names line fields
    let more ← reader.lines? names (line + 1) texts
    return entries ++ more

end MappingReader

/-- The entries that mappings stand for, with the names that they refer to by number. -/
def Entry.decode? (names : List String) (mappings : String) : Option (List Entry) :=
  MappingReader.lines? names 0 {} (mappings.toList.splitOn ';')

end EcmaPress

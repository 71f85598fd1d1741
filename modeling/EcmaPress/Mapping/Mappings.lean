import EcmaPress.Mapping.Segment
import EcmaPress.Mapping.Vlq

/-!
# The mappings of a source map

Segments from several sources as one text: a semicolon for each line end, commas between the
segments of a line, and for each segment the differences to the one before it, in 64 bits. Segments
that say what the one before them says already are left out first.
-/

namespace EcmaPress

/-- A segment with the number of its source. -/
structure Entry where
  source : Nat
  segment : Segment
deriving DecidableEq, Repr

namespace Entry

/-- Whether `next` only goes on with `last`: the same lines and the same distance between the
columns, and neither of them names anything. -/
def continues (last next : Entry) : Bool :=
  last.source == next.source &&
    last.segment.generated.line == next.segment.generated.line &&
    last.segment.origin.line == next.segment.origin.line &&
    last.segment.name.isNone && next.segment.name.isNone &&
    (last.segment.generated.column.toNat : Int) - last.segment.origin.column.toNat ==
      (next.segment.generated.column.toNat : Int) - next.segment.origin.column.toNat

/-- Leaves out the entries that go on with the last one kept. -/
def mergeAfter (last : Entry) : List Entry → List Entry
  | [] => []
  | next :: rest =>
    if last.continues next then mergeAfter last rest else next :: mergeAfter next rest

/-- Leaves out every entry that goes on with the last one kept. -/
def merge : List Entry → List Entry
  | [] => []
  | first :: rest => first :: mergeAfter first rest

/-- The names of entries, each one once, in the order of their first use. -/
def names (entries : List Entry) : List String :=
  (entries.filterMap (·.segment.name)).eraseDups

end Entry

/-- The numbers that the next segment is written relative to. -/
structure MappingState where
  line : UInt32 := 0
  /-- No segment has been written on the line. -/
  lineStart : Bool := true
  column : Int64 := 0
  source : Int64 := 0
  originLine : Int64 := 0
  originColumn : Int64 := 0
  name : Int64 := 0

namespace MappingState

/-- The state at the line of the next segment, and what leads there. -/
def toLine (state : MappingState) (line : UInt32) : MappingState × List Char :=
  if state.line < line then
    ({ state with line, lineStart := true, column := 0 },
      List.replicate (line.toNat - state.line.toNat) ';')
  else
    (state, if state.lineStart then [] else [','])

/-- The state behind an entry on the line of the state. A segment without a name leaves the number
of the last name. -/
def behind (names : List String) (state : MappingState) (entry : Entry) : MappingState where
  line := state.line
  lineStart := false
  column := .ofNat entry.segment.generated.column.toNat
  source := .ofNat entry.source
  originLine := .ofNat entry.segment.origin.line.toNat
  originColumn := .ofNat entry.segment.origin.column.toNat
  name := match entry.segment.name with
    | none => state.name
    | some name => .ofNat (names.idxOf name)

/-- The numbers that stand for an entry on the line of the state. -/
def numbers (names : List String) (state : MappingState) (entry : Entry) : List Int64 :=
  let next := state.behind names entry
  [next.column - state.column, next.source - state.source, next.originLine - state.originLine,
      next.originColumn - state.originColumn] ++
    if entry.segment.name.isSome then [next.name - state.name] else []

/-- Entries in writing; `none` if that has no end. -/
def write? (names : List String) (state : MappingState) : List Entry → Option (List Char)
  | [] => some []
  | entry :: rest => do
    let (state, separators) := state.toLine entry.segment.generated.line
    let fields ← (state.numbers names entry).mapM Vlq.encode?
    let more ← write? names (state.behind names entry) rest
    return separators ++ fields.flatten ++ more

end MappingState

/-- The mappings of entries, with the list of names that they refer to by number; `none` if the
mappings have no end. -/
def Entry.encode? (entries : List Entry) : Option (List String × String) :=
  let names := Entry.names entries
  (MappingState.write? names {} entries).map fun text => (names, String.ofList text)

end EcmaPress

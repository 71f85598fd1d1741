import EcmaPress.Pattern
import EcmaPress.Run.Report
import EcmaPress.Text.CharClass
import EcmaPress.Text.Number
import EcmaPress.Text.Split

/-!
# Filters of reports

Which reports are shown. A filter is a list of directives, each of which admits reports up to a
level, from everywhere or from the origins that begin with some text. Of the directives that
fit a report, the most specific one decides: the one with the longest text, and of two with the
same text the one that names a field. The only field of a report is its message.
-/

namespace EcmaPress

/-- A level for the reports of some origin that have some field. -/
structure Directive where
  origin : Option String
  field : Option String := none
  level : Level
deriving DecidableEq, Repr

/-- A list of directives, of which later ones take the place of earlier ones for the same
reports. -/
abbrev Filter := List Directive

/-- The level with a name, in any case, or with a number. -/
def Level.ofString? (text : String) : Option Level :=
  match readNumber text with
  | .ok n => [.off, .error, .warn, .info, .debug, .trace][n]?
  | .error _ =>
    ([("off", .off), ("error", .error), ("warn", .warn), ("info", .info), ("debug", .debug),
      ("trace", .trace)] : List (String × Level)).lookup text.toLower

/-- A level behind an equals sign. Without one, all levels are meant. -/
def Level.ofValue? (text : List Char) : Option Level :=
  if text.isEmpty then some .trace else Level.ofString? (String.ofList text)

namespace Directive

/-- Whether a directive may begin with a character. -/
def startsWith (c : Char) : Bool :=
  c = '-' || c = ':' || c = '_' || isAlphabetic c || isNumeric c

/-- A span and a field that brackets ask for. A field stands in braces behind the span. -/
structure Brackets where
  span : List Char
  field : Option (List Char)
deriving DecidableEq, Repr

/-- What brackets ask for, from behind the opening one, and what stands behind them. -/
def brackets? (text : List Char) : Option (Brackets × List Char) :=
  let span := text.takeWhile fun c => c ≠ ']' && c ≠ '\x7b'
  match text.drop span.length with
  | ']' :: rest => some (⟨span, none⟩, rest)
  | '\x7b' :: inside =>
    let field := inside.takeWhile (· ≠ '\x7d')
    match inside.drop field.length with
    | '\x7d' :: ']' :: rest => if field.isEmpty then none else some (⟨span, some field⟩, rest)
    | _ => none
  | _ => none

/-- Whether a field may be asked for. Behind an equals sign stands its value, up to the next one:
a number or a pattern. The only numbers that are no patterns begin with a plus sign. -/
def isField (field : List Char) : Bool :=
  match stretches '=' field with
  | _ :: ('+' :: value) :: _ => isFloating value
  | _ :: value :: _ => isPattern value
  | _ => true

/-- What is left of a text behind its first bytes. -/
def dropBytes : Nat → List Char → List Char
  | 0, text => text
  | _ + 1, [] => []
  | size + 1, c :: rest => dropBytes (size + 1 - c.utf8Size) rest

/-- The first bytes of a text. -/
def takeBytes : Nat → List Char → List Char
  | 0, _ => []
  | _ + 1, [] => []
  | size + 1, c :: rest => c :: takeBytes (size + 1 - c.utf8Size) rest

/-- What is taken for a field that is found behind some text in a directive. Its place is counted
without the white space in front of the directive, but applied with it. -/
def fieldRead (directive before field : List Char) : List Char :=
  takeBytes (String.ofList field).utf8ByteSize
    (dropBytes (String.ofList before).utf8ByteSize directive)

/-- The level behind a name or brackets, where there may be none. White space around the
directive is taken for a part of the level and spoils it. -/
def levelBehind? (spoiled : Bool) : List Char → Option Level
  | [] => some .trace
  | '=' :: level => if spoiled then none else Level.ofValue? level
  | _ => none

/-- The directives that a text stands for; `none` if it stands for nothing. What is limited to
a span or to the value of a field admits no report, since no report is made inside of a span.
Neither does a name with white space around it, which is part of no origin. -/
def ofList? (text : List Char) : Option Filter :=
  let inner := trimWhiteSpace text
  let spoiled := inner.length < text.length
  let name := inner.takeWhile fun c => c ≠ '=' && c ≠ '['
  if inner.isEmpty || (name.head?.map startsWith) = some false then none
  else
    match inner.drop name.length with
    | [] =>
      match Level.ofString? (String.ofList text) with
      | some level => some [⟨none, none, level⟩]
      | none => some [⟨some (String.ofList text), none, .trace⟩]
    | '[' :: behind => do
      let (inside, behind) ← brackets? behind
      let before := name ++ '[' :: inside.span ++ ['\x7b']
      guard (inside.field.all fun field => isField (fieldRead text before field))
      let level ← levelBehind? spoiled behind
      match inside.field with
      | some field =>
        if text.head?.any isWhiteSpace || !inside.span.isEmpty || field.contains '=' then return []
        else
          return [⟨if name.isEmpty then none else some (String.ofList name),
            some (String.ofList field), level⟩]
      | none => return []
    | behind => do
      guard !name.isEmpty
      let level ← levelBehind? spoiled behind
      return [⟨some (String.ofList name), none, level⟩]

/-- Whether a directive is about the reports of an origin. -/
def fits (directive : Directive) (origin : String) : Bool :=
  directive.field.all (· = "message") &&
    match directive.origin with
    | none => true
    | some start => start.toList.isPrefixOf origin.toList

/-- How specific a directive is. -/
def weight (directive : Directive) : Nat :=
  let fields := if directive.field.isSome then 1 else 0
  match directive.origin with
  | none => fields
  | some start => 2 * (start.utf8ByteSize + 1) + fields

end Directive

namespace Filter

/-- The filter that holds if none is asked for. -/
def standard : Filter := [⟨none, none, .warn⟩]

/-- The filter that a text asks for. A text with something wrong in it asks for the standard
one, and a text without directives for no reports at all. -/
def ofString (text : String) : Filter :=
  let items := (stretches ',' text.toList).filter (!·.isEmpty)
  ((items.mapM Directive.ofList?).map List.flatten).getD standard

/-- The directive that decides about an origin. -/
def deciding (filter : Filter) (origin : String) : Option Directive :=
  (filter.filter (·.fits origin)).foldl
    (fun best directive =>
      match best with
      | some other => if other.weight ≤ directive.weight then some directive else best
      | none => some directive)
    none

/-- Whether a report is shown. -/
def admits (filter : Filter) (report : Report) : Bool :=
  match filter.deciding report.origin with
  | some directive => report.level.rank ≤ directive.level.rank
  | none => false

end Filter
end EcmaPress

import EcmaPress.Binding.Renaming
import EcmaPress.Layout.Piece
import EcmaPress.Layout.Style
import EcmaPress.Mapping.Segment
import EcmaPress.Text.CharClass

/-!
# Pages

A page is a text in the making: the characters written so far, the place where the next one
goes, and what must be known to keep two tokens apart. Pieces are set on it one after the other.
-/

namespace EcmaPress

/-- A text in the making. -/
structure Page where
  /-- The characters written so far, the last one first. -/
  written : List Char := []
  place : Place := {}
  depth : Nat := 0
  /-- Nothing has been written on the current line. -/
  lineStart : Bool := true
  /-- What the last token looks like at its end. -/
  shape : Shape := .plain
  /-- A semicolon has been dropped since the last token. -/
  openEnd : Bool := false
  /-- The segments of the tokens written so far, the last one first. -/
  segments : List Segment := []

namespace Page

/-- A character that may be part of a word. -/
def isWordChar (c : Char) : Bool :=
  isIdPart c || c == '\\'

/-- Writes characters as they are. -/
def raw (page : Page) (text : List Char) : Page :=
  { page with written := text.reverse ++ page.written, place := page.place.after text }

/-- Whether a token that begins with `next` would run into the last one, or make the sign of an
HTML comment with it. -/
def needsSpace (page : Page) (next : Char) : Bool :=
  match page.written with
  | [] => false
  | last :: before =>
    (isWordChar last && isWordChar next) ||
      (page.shape == .regex && isWordChar next) ||
      (page.shape == .integer && next == '.') ||
      (last == '+' && next == '+') ||
      (last == '-' && next == '-') ||
      (last == '/' && (next == '/' || next == '*')) ||
      (last == '<' && next == '!') ||
      (last == '-' && before.head? == some '-' && next == '>')

/-- Indents the current line if nothing has been written on it. -/
def beginLine (style : Style) (page : Page) : Page :=
  if page.lineStart then
    let page := { page with lineStart := false }
    match style.indent with
    | none => page
    | some indent => (List.replicate page.depth indent.toList).foldl raw page
  else page

/-- Writes a token. The segment ties it to its origin, if it has one, and to the name that it
had. -/
def token (style : Style) (page : Page) (text : List Char) (origin : Option Position)
    (oldName : Option String) (shape : Shape) : Page :=
  match text with
  | [] => page
  | first :: _ =>
    let page := page.beginLine style
    let page := if page.needsSpace first then page.raw [' '] else page
    let segments := match origin with
      | none => page.segments
      | some pos => ⟨page.place, .ofPosition pos, oldName⟩ :: page.segments
    { page.raw text with shape, segments, openEnd := false }

/-- Sets one piece on a page. A compact layout knows no spaces and lines but those that tokens
need. -/
def set (style : Style) (renames : Renames) (page : Page) : Piece → Page
  | .token text origin shape => page.token style text.toList origin none shape
  | .name id =>
    match renames[id.pos.offset]? with
    | none => page.token style id.name.toList (some id.pos) none .plain
    | some new => page.token style new.toList (some id.pos) (some id.name) .plain
  | .terminator last =>
    if last && style.dropSemicolons then { page with openEnd := true }
    else page.token style [';'] none none .plain
  | .space => if style.indent.isSome then page.raw [' '] else page
  | .newline =>
    if style.indent.isSome then { page.raw ['\n'] with lineStart := true } else page
  | .indent => { page with depth := page.depth + 1 }
  | .dedent => { page with depth := page.depth - 1 }

/-- Sets pieces on an empty page. -/
def ofPieces (style : Style) (renames : Renames) (pieces : List Piece) : Page :=
  pieces.foldl (set style renames) {}

end Page
end EcmaPress

import EcmaPress.Layout.Page

/-!
# Printed programs

Printing a program by rules: its names are exchanged if the rules ask for it, and its pieces are
set on a page.
-/

namespace EcmaPress

/-- A printed program. -/
structure Printed where
  text : String := ""
  /-- Generated places count from the beginning of the text. -/
  segments : List Segment := []
  /-- The last semicolon was dropped, so a program that follows needs a separator. -/
  openEnd : Bool := false
deriving DecidableEq, Repr

/-- The text, segments and end of a page. -/
def Page.printed (page : Page) : Printed where
  text := String.ofList page.written.reverse
  segments := page.segments.reverse
  openEnd := page.openEnd

namespace Program

/-- The new names that a style asks for. -/
def renames (program : Program) (style : Style) : Renames :=
  match style.reserved with
  | none => ∅
  | some reserved => program.obfuscate reserved

/-- Prints a program by rules. -/
def print (program : Program) (rules : List Rule) : Printed :=
  let style := Style.ofRules rules
  (Page.ofPieces style (program.renames style) program.pieces).printed

end Program
end EcmaPress

/-!
# Styles

What rules ask of a printer, and the style that a list of rules amounts to.
-/

namespace EcmaPress

/-- One demand on the printed text. -/
inductive Rule where
  /-- No space but where tokens need one; the semicolon behind the last statement of a list may
  be dropped as well. -/
  | minify (dropSemicolons : Bool)
  /-- Short names for what is bound in functions and handlers, none of them reserved. -/
  | obfuscate (reserved : List String)
  /-- One statement on a line, with the given text once for each level of nesting. -/
  | indent (indent : String)
deriving DecidableEq, Repr

/-- How to print: the text of one level of indentation unless the layout is compact, whether to
drop semicolons, and which names to avoid if names are exchanged at all. -/
structure Style where
  indent : Option String := none
  dropSemicolons : Bool := false
  reserved : Option (List String) := none
deriving DecidableEq, Repr

namespace Style

/-- A style with one more rule. The last indentation counts, reserved names add up, and an
indentation takes the place of the compact layout. -/
def add (style : Style) : Rule → Style
  | .minify dropSemicolons =>
    { style with dropSemicolons := style.dropSemicolons || dropSemicolons }
  | .obfuscate reserved => { style with reserved := some (style.reserved.getD [] ++ reserved) }
  | .indent indent => { style with indent := some indent }

/-- The style of a list of rules. -/
def ofRules (rules : List Rule) : Style :=
  rules.foldl add {}

end Style
end EcmaPress

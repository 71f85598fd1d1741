import EcmaPress.Layout.Printed
import EcmaPress.Mapping.Mappings
import EcmaPress.Mapping.SourceMap

/-!
# Bundles

Printed programs one behind the other as one text, with the segments of all of them.
-/

namespace EcmaPress

/-- Printed programs as one text. -/
structure Bundle where
  text : String := ""
  /-- The place behind the text. -/
  place : Place := {}
  /-- The last program lacks its semicolon. -/
  openEnd : Bool := false
  /-- The names of the sources, each one once, in the order of their first use. -/
  sources : List String := []
  entries : Array Entry := #[]

namespace Bundle

/-- A text behind the bundle. -/
def append (bundle : Bundle) (text : String) : Bundle :=
  { bundle with text := bundle.text ++ text, place := bundle.place.after text.toList }

/-- A place of a text that begins at `place`, as a place of the whole. A text with 2 ^ 32 lines is
beyond it: then the count comes round to zero, which is taken for the first line. -/
def shift (place inText : Place) : Place :=
  if inText.line = 0 then ⟨place.line, place.column + inText.column⟩
  else ⟨place.line + inText.line, inText.column⟩

/-- Adds a printed program under the name of its source. A semicolon goes between it and a
program that lacks its own; an empty text adds nothing at all. -/
def push (bundle : Bundle) (source : String) (printed : Printed) : Bundle :=
  if printed.text.isEmpty then bundle
  else
    let bundle := if bundle.openEnd then bundle.append ";" else bundle
    let sources :=
      if bundle.sources.contains source then bundle.sources else bundle.sources ++ [source]
    let entries := printed.segments.map fun segment : Segment => ({
      source := sources.idxOf source
      segment := { segment with generated := shift bundle.place segment.generated } } : Entry)
    { bundle.append printed.text with
      openEnd := printed.openEnd
      sources
      entries := bundle.entries ++ entries }

/-- The source map of a bundle for a file of the given name. The mappings of a bundle have an end,
unless it has more than 2 ^ 62 sources or names (`Bundle.sourceMap_addAll`). -/
def sourceMap (bundle : Bundle) (file : String) : SourceMap :=
  let (names, mappings) := (Entry.encode? (Entry.merge bundle.entries.toList)).getD ([], "")
  { file, sources := bundle.sources, names, mappings }

end Bundle
end EcmaPress

import EcmaPress.Mapping.Base64
import EcmaPress.Text.Json

/-!
# Source maps

A source map of version 3, as JSON and as an address that holds the JSON itself.
-/

namespace EcmaPress

/-- A source map: the generated file, the sources and names that the mappings refer to by
number, and the mappings. -/
structure SourceMap where
  file : String
  sources : List String
  names : List String
  mappings : String
deriving DecidableEq, Repr

namespace SourceMap

/-- A source map in JSON. -/
def toJson (map : SourceMap) : Json := .object [
  ("version", .number 3),
  ("file", .string map.file),
  ("sources", .list (map.sources.map .string)),
  ("names", .list (map.names.map .string)),
  ("mappings", .string map.mappings)]

/-- The text of a source map. -/
def text (map : SourceMap) : String := map.toJson.text

/-- An address that holds a source map. -/
def toDataUrl (map : SourceMap) : String :=
  "data:application/json;base64," ++ String.ofList (Base64.encode map.text.toUTF8.toList)

end SourceMap
end EcmaPress

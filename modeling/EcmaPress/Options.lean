import EcmaPress.Charset.Label
import EcmaPress.Layout.Style
import EcmaPress.Path
import EcmaPress.Text.Json
import EcmaPress.Token

/-!
# Options of a run

What one run is asked to do, the layout rules that follow from it, and its form in JSON. In
JSON the options are an object with a member for each field, or a list of the fields in their
order.
-/

namespace EcmaPress

/-- Which source map is asked for: none, one in the usual place, or one at a path. -/
inductive MapRequest where
  | absent
  | auto
  | file (path : Path)
deriving DecidableEq, Repr, Inhabited

/-- A request from the value of a flag, which may be missing or empty. -/
def MapRequest.ofFlag : Option String → MapRequest
  | none => .absent
  | some text => if text = "" then .auto else .file (.ofString text)

/-- The options of a run. Without inputs the standard input is read, and without an output the
standard output is written. The character set is that of the files. -/
structure Options where
  inputs : List Path := []
  output : Option Path := none
  mangle : Bool := false
  pretty : Bool := false
  obfuscate : Bool := false
  dropSemicolons : Bool := false
  sourceMap : MapRequest := .absent
  indentWidth : Nat := 4
  charset : Charset := .utf8
deriving DecidableEq, Repr, Inhabited

namespace Options

/-- Whether semicolons that are not needed are left out. -/
def dropsSemicolons (options : Options) : Bool :=
  options.dropSemicolons || options.mangle || options.obfuscate

/-- Whether variables get short names. -/
def obfuscates (options : Options) : Bool :=
  options.obfuscate || options.mangle

/-- The indentation of a level, if the output is laid out in lines. -/
def indent (options : Options) : Option String :=
  if options.pretty then some (String.ofList (List.replicate options.indentWidth ' ')) else none

/-- The layout rules of a run. -/
def rules (options : Options) : List Rule :=
  [.minify options.dropsSemicolons] ++
    (if options.obfuscates then [.obfuscate reservedWords] else []) ++
    options.indent.toList.map .indent

end Options

/-! ## JSON -/

/-- A path in JSON, if it is UTF-8. -/
def Path.toJson? (path : Path) : Option Json :=
  path.text?.map .string

/-- A request in JSON. A path that is not UTF-8 has none. -/
def MapRequest.toJson? : MapRequest → Option Json
  | .absent => some (.string "Absent")
  | .auto => some (.string "Auto")
  | .file path => path.toJson?.map fun json => .object [("Path", json)]

/-- A request from JSON. A request without a path may also be the key of nothing. -/
def MapRequest.ofJson? : Json → Option MapRequest
  | .string "Absent" | .object [("Absent", .null)] => some .absent
  | .string "Auto" | .object [("Auto", .null)] => some .auto
  | .object [("Path", .string path)] => some (.file (.ofString path))
  | _ => none

namespace Options

/-- The keys of the fields, in their order. -/
def keys : List String :=
  ["inputs", "output", "mangle", "pretty", "obfuscate", "drop_semi", "source_map", "indent_width",
    "encoding"]

/-- The fields in JSON, in their order, if all paths are UTF-8. -/
def fields? (options : Options) : Option (List Json) := do
  let output ← match options.output with
    | none => some .null
    | some path => path.toJson?
  return [
    .list (← options.inputs.mapM Path.toJson?),
    output,
    .bool options.mangle,
    .bool options.pretty,
    .bool options.obfuscate,
    .bool options.dropSemicolons,
    ← options.sourceMap.toJson?,
    .number options.indentWidth,
    .string options.charset.name]

/-- Options in JSON, if all paths are UTF-8. -/
def toJson? (options : Options) : Option Json :=
  options.fields?.map fun fields => .object (keys.zip fields)

/-- The output from JSON, which may be null. -/
def outputOfJson? : Json → Option (Option Path)
  | .null => some none
  | .string path => some (some (.ofString path))
  | _ => none

/-- Options from their fields. The width has to fit into 64 bits. -/
def ofFields? : List Json → Option Options
  | [inputs, output, mangle, pretty, obfuscate, dropSemicolons, sourceMap, width, charset] => do
    let paths ← (← inputs.list?).mapM Json.string?
    let width ← width.nat?
    guard (width < 18446744073709551616)
    return {
      inputs := paths.map Path.ofString
      output := ← outputOfJson? output
      mangle := ← mangle.bool?
      pretty := ← pretty.bool?
      obfuscate := ← obfuscate.bool?
      dropSemicolons := ← dropSemicolons.bool?
      sourceMap := ← MapRequest.ofJson? sourceMap
      indentWidth := width
      charset := ← charset.string?.bind Charset.ofLabel? }
  | _ => none

/-- Options from JSON. Only the output may be missing from an object, and what the object has
besides is ignored. -/
def ofJson? : Json → Option Options
  | .list fields => ofFields? fields
  | .object members => do
    ofFields? (← keys.mapM fun key =>
      members.lookup key <|> if key = "output" then some .null else none)
  | _ => none

end Options
end EcmaPress

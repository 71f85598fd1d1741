import EcmaPress.Plan
import EcmaPress.Run.Failure
import EcmaPress.Text.Quoted

/-!
# Reports

What a run says about itself. A report has a level, which tells how much it matters, and an
origin, which names the part of the program that it comes from; filters look at both.
-/

namespace EcmaPress

/-- How much a report matters, the most first. -/
inductive Level where
  | off
  | error
  | warn
  | info
  | debug
  | trace
deriving DecidableEq, Repr

/-- The rank of a level. -/
def Level.rank : Level → Nat
  | .off => 0
  | .error => 1
  | .warn => 2
  | .info => 3
  | .debug => 4
  | .trace => 5

/-- Something that a run says about itself. -/
inductive Report where
  | options (options : Options)
  | streams (plan : Plan)
  | rules (rules : List Rule)
  | renamed (scopes occurrences : Nat)
  | mapUrl (url : String)
  | failed (failure : Failure)
deriving DecidableEq, Repr

/-- Parts of a value in braces, with blanks inside. -/
def bracedFields (name : String) (fields : List (String × String)) : String :=
  name ++ " \x7b " ++ ", ".intercalate (fields.map fun (key, value) => key ++ ": " ++ value) ++
    " \x7d"

namespace Report

/-- The level of a report. -/
def level : Report → Level
  | .failed _ => .error
  | _ => .debug

/-- The part of the program that a report comes from. -/
def origin : Report → String
  | .options _ | .failed _ => "crimp::cli::runner"
  | .streams _ | .rules _ | .mapUrl _ => "crimp::api"
  | .renamed _ _ => "crimp_es5::scope"

/-- A path in a report: between quotes, with the numbers of the bytes that are no text. -/
def pathText (path : Path) : String :=
  String.ofList ('"' :: (Utf8.pieces path.bytes).flatMap piece ++ ['"'])
where
  /-- A piece of a path between quotes. -/
  piece : Utf8.Piece → List Char
    | .char c => escapedInQuotes c
    | .fault bytes => bytes.flatMap fun byte =>
      ['\\', 'x'] ++ (paddedHex 2 byte.toNat).toList.map Char.toUpper

/-- A file in a report. -/
def fileText (path : Path) : String := s!"File({pathText path})"

/-- An input in a report. -/
def inputText : InputStream → String
  | .standard => "Standard"
  | .file path => fileText path

/-- An output in a report. -/
def outputText : OutputStream → String
  | .standard => "Standard"
  | .file path => fileText path

/-- The place of a source map in a report. -/
def mapText : Option MapStream → String
  | none => "None"
  | some .inline => "Some(Inline)"
  | some (.file path) => s!"Some({fileText path})"

/-- A plan in a report. -/
def planText (plan : Plan) : String := bracedFields "StreamPlan" [
  ("cwd", pathText plan.directory),
  ("inputs", "[" ++ ", ".intercalate (plan.inputs.map inputText) ++ "]"),
  ("output", outputText plan.output),
  ("source_map", mapText plan.sourceMap)]

/-- A layout rule in a report. -/
def ruleText : Rule → String
  | .minify drop => bracedFields "Minify" [("drop_semi", if drop then "true" else "false")]
  | .obfuscate reserved => bracedFields "Obfuscate" [
      ("reserved", "\x7b" ++ ", ".intercalate (reserved.map quoted) ++ "\x7d")]
  | .indent text => bracedFields "Indent" [("indent", quoted text)]

/-- The text of a report. -/
def text : Report → String
  | .options o => "options: " ++ (o.toJson?.map Json.text).getD ""
  | .streams plan => s!"streams: {planText plan}"
  | .rules rs => "rules: [" ++ ", ".intercalate (rs.map ruleText) ++ "]"
  | .renamed scopes occurrences =>
    s!"obfuscate: {scopes} scopes, {occurrences} identifiers renamed"
  | .mapUrl url => s!"source map url: {url}"
  | .failed failure => failure.message

end Report
end EcmaPress

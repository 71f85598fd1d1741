import EcmaPress.Grammar.Program
import EcmaPress.Mapping.Bundle
import EcmaPress.Run.Dialogue

/-!
# Pressing sources

The run itself: read every input, print it, put the texts behind each other, and write the
output and then the source map. Whatever may fail on the way to the output, decoding, parsing
and encoding it, comes before the first write.
-/

namespace EcmaPress

/-- A source text by the layout rules of some options. -/
def pressText (source : String) (options : Options) : Except SyntaxError String :=
  (parse source none).map fun program => (program.print options.rules).text

/-- What a run works with: its options, the streams they amount to, and the character set of
the standard streams. -/
structure Setting where
  options : Options
  plan : Plan
  standardCharset : Charset
deriving DecidableEq, Repr

namespace Setting

variable [LegacyCoding]

/-- The setting of some options in a working directory. The standard streams may have a
character set of their own. -/
def ofOptions (options : Options) (directory : Path) (standard : Option Charset) : Setting :=
  { options, plan := .ofOptions options directory
    standardCharset := standard.getD options.charset }

/-- A failure with a file, which is shown as seen from the working directory. -/
def fileFailure (setting : Setting) (path : Path) (error : StreamError) : Failure :=
  .file (setting.plan.directory.shown path) error

/-- The text of an input. An interrupt before or during a read of the standard input counts for
more than what the read comes to. -/
def readInput (setting : Setting) (input : InputStream) : Task String := do
  Task.check
  match input with
  | .standard =>
    let answer ← Task.call .readStandard
    Task.check
    let bytes ← Task.ofExcept .stream answer
    Task.ofExcept .decode (setting.standardCharset.decode bytes)
  | .file path =>
    let answer ← Task.call (.readFile path)
    let bytes ← Task.ofExcept (setting.fileFailure path) answer
    Task.ofExcept .decode (setting.options.charset.decode bytes)

/-- Prints a program, and reports the renaming where names are exchanged. -/
def print (setting : Setting) (program : Program) : Task Printed := do
  if setting.options.obfuscates then
    Task.report (.renamed program.scoping.scopes.size (program.obfuscate reservedWords).size)
  return program.print setting.options.rules

/-- The bundle of some more inputs. -/
def gather (setting : Setting) (bundle : Bundle) : List InputStream → Task Bundle
  | [] => pure bundle
  | input :: rest => do
    let text ← setting.readInput input
    Task.check
    let program ← Task.ofExcept .source (parse text (some input.name))
    let printed ← setting.print program
    setting.gather (bundle.push (setting.plan.sourceName input) printed) rest

/-- The last line of an output, which says where its source map is. -/
def trailer (url : String) : String :=
  "\n//# sourceMappingURL=" ++ url ++ "\n"

/-- The output for a bundle, and the file and text of a source map that stands apart. -/
def assemble (setting : Setting) (bundle : Bundle) : Task (String × Option (Path × String)) := do
  let map := bundle.sourceMap setting.plan.outputName
  match setting.plan.sourceMap, setting.plan.mapUrl? with
  | none, _ => return (bundle.text, none)
  | some (.file path), some url =>
    Task.report (.mapUrl url)
    return (bundle.text ++ trailer url, some (path, map.text))
  | some _, _ =>
    let url := map.toDataUrl
    Task.report (.mapUrl url)
    return (bundle.text ++ trailer url, none)

/-- Writes a text to a file. The file is not touched if the character set cannot write the
text. -/
def writeFile (setting : Setting) (path : Path) (text : String) : Task Unit := do
  let bytes ← Task.ofExcept .encode (setting.options.charset.encode text)
  let answer ← Task.call (.writeFile path bytes)
  Task.ofExcept (setting.fileFailure path) answer

/-- Writes the output. The standard output is flushed when all has been written. -/
def writeOutput (setting : Setting) (text : String) : Task Unit := do
  match setting.plan.output with
  | .file path => setting.writeFile path text
  | .standard =>
    let bytes ← Task.ofExcept .encode (setting.standardCharset.encode text)
    let answer ← Task.call (.writeStandard bytes)
    Task.ofExcept .stream answer
    let flushed ← Task.call .flushStandard
    Task.ofExcept .stream flushed

/-- The run. -/
def run (setting : Setting) : Task Unit := do
  Task.report (.streams setting.plan)
  Task.report (.rules setting.options.rules)
  let bundle ← setting.gather {} setting.plan.inputs
  Task.check
  let (output, map) ← setting.assemble bundle
  setting.writeOutput output
  match map with
  | none => pure ()
  | some (path, text) =>
    Task.check
    setting.writeFile path text

end Setting

/-- Presses sources as some options ask, in a working directory. -/
def press [LegacyCoding] (options : Options) (directory : Path) (standard : Option Charset) :
    Task Unit :=
  (Setting.ofOptions options directory standard).run

/-- Presses sources in the working directory of the process, which may be missing. -/
def pressHere [LegacyCoding] (options : Options) (directory : Except StreamError Path)
    (standard : Option Charset) : Task Unit := do
  let directory ← Task.ofExcept .stream directory
  press options directory standard

end EcmaPress

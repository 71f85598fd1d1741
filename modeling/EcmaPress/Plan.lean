import EcmaPress.Options

/-!
# The streams of a run

Where a run reads and writes is settled before it starts, from the options and the working
directory. All paths of a plan are absolute, so that a source map which names the output can be
told from one that has a file of its own.
-/

namespace EcmaPress

/-- Where a source text comes from. -/
inductive InputStream where
  | standard
  | file (path : Path)
deriving DecidableEq, Repr

/-- Where the output goes. -/
inductive OutputStream where
  | standard
  | file (path : Path)
deriving DecidableEq, Repr

/-- Where a source map goes: to a file, or to the end of the output. -/
inductive MapStream where
  | file (path : Path)
  | inline
deriving DecidableEq, Repr

/-- The name of the standard input as a source. -/
def stdinName : String := "<stdin>"

/-- The name of the standard output as a file. -/
def stdoutName : String := "<stdout>"

/-- What an input is called in errors. -/
def InputStream.name : InputStream → String
  | .standard => stdinName
  | .file path => path.text

/-- The streams of a run. -/
structure Plan where
  directory : Path
  inputs : List InputStream
  output : OutputStream
  sourceMap : Option MapStream
deriving DecidableEq, Repr

namespace Plan

/-- The file of a source map that stands beside an output. -/
def beside (output : Path) : Path := ⟨output.bytes ++ Utf8.ofString ".map"⟩

/-- Where the source map goes. It is part of the output if that is the standard output and the
map has no path, or if the path of the map is that of the output. -/
def placeMap (directory : Path) (output : OutputStream) : MapRequest → Option MapStream
  | .absent => none
  | .auto =>
    match output with
    | .standard => some .inline
    | .file path => some (.file (beside path))
  | .file path =>
    let map := directory.absolutize path
    match output with
    | .standard => some (.file map)
    | .file path => some (if path.same map then .inline else .file map)

/-- The streams for some options, seen from a working directory. -/
def ofOptions (options : Options) (directory : Path) : Plan :=
  let output := match options.output with
    | none => OutputStream.standard
    | some path => .file (directory.absolutize path)
  { directory
    inputs := if options.inputs.isEmpty then [.standard]
      else options.inputs.map fun path => .file (directory.absolutize path)
    output
    sourceMap := placeMap directory output options.sourceMap }

/-- The directory of the output. -/
def outputDirectory (plan : Plan) : Path :=
  match plan.output with
  | .standard => plan.directory
  | .file path => path.directory

/-- The directory that a source map is read from. -/
def mapDirectory (plan : Plan) : Path :=
  match plan.sourceMap with
  | some (.file path) => path.directory
  | _ => plan.outputDirectory

/-- What an input is called in a source map. -/
def sourceName (plan : Plan) : InputStream → String
  | .standard => stdinName
  | .file path => (plan.mapDirectory.relative path).toUrl

/-- What the output is called in a source map. -/
def outputName (plan : Plan) : String :=
  match plan.output with
  | .standard => stdoutName
  | .file path => path.fileName?.getD path.text

/-- The address of a source map in a file, as seen from the output. -/
def mapUrl? (plan : Plan) : Option String :=
  match plan.sourceMap with
  | some (.file path) => some (plan.outputDirectory.relative path).toUrl
  | _ => none

end Plan
end EcmaPress

import EcmaPress.CommandLine.Parse
import EcmaPress.Run.Filter
import EcmaPress.Run.Press

/-!
# Invocations

What the program does for a command line, as a dialogue that ends with the exit code. Help and
the version are answers on the standard output; all else that is not a run is an error.
-/

namespace EcmaPress

/-- Where the parts of the program have been put, and what it runs on. -/
structure Build where
  program : String
  library : String
  executable : String
  platform : String
deriving DecidableEq, Repr

/-- What surrounds an invocation: the variables of the environment, the working directory or why
there is none, the character set that the standard streams declare, and where the program is. -/
structure Surroundings where
  environment : String → Option String
  directory : Except StreamError Path
  standard : Option Charset
  build : Build

/-- The lines that tell the version. -/
def versionLines (build : Build) : List String := [
  s!"crimp 1.0.1 from {build.program}",
  s!"crimp-es5 1.0.1 from {build.library}",
  "ecmascript 5.1 from crimp-es5",
  s!"using {build.executable} ({build.platform})"]

/-- The filter that the environment asks for. -/
def filterOf (lookup : String → Option String) : Filter :=
  ((lookup "CRIMP_LOG").map Filter.ofString).getD .standard

namespace Invocation

/-- Writes texts to the standard output, one after the other until one fails, and flushes it. -/
def say : List String → Dialogue (Except StreamError Unit)
  | [] => .call .flushStandard .done
  | text :: rest => .call (.writeStandard (Utf8.ofString text)) fun
    | .ok _ => say rest
    | .error error => .done (.error error)

/-- Ends with a failure, which is reported. -/
def fail (failure : Failure) : Dialogue Nat :=
  .report (.failed failure) (.done failure.exitCode)

/-- Tells the version. -/
def tellVersion (build : Build) : Dialogue Nat := do
  match ← say ((versionLines build).map (· ++ "\n")) with
  | .ok _ => return 0
  | .error error => fail (.stream error)

/-- Says what is wrong with a command line, or the help. Nobody can be told if that fails. -/
def explain (program : String) (error : UsageError) : Dialogue Nat := do
  let text := error.message program
  if error.isAnswer then
    let _ ← say [text]
  else
    Dialogue.complain text (.done ())
  return error.exitCode

/-- Ends as a run has. An interrupted run ends without a word. -/
def conclude : Except Failure Unit → Dialogue Nat
  | .ok _ => return 0
  | .error .interrupted => return Failure.interrupted.exitCode
  | .error failure => fail failure

/-- Presses sources. The options are reported first. -/
def pressFor [LegacyCoding] (surroundings : Surroundings) (options : Options) : Dialogue Nat :=
  .report (.options options) do
    conclude (← (pressHere options surroundings.directory surroundings.standard).run)

end Invocation

/-- What the program does for a command line, which begins with what the program was called
as. -/
def invoke [LegacyCoding] (surroundings : Surroundings) (argv : List String) : Dialogue Nat :=
  let program := programName surroundings.environment (argv.head?.getD defaultProgram)
  match requestOf (Charset.preferred surroundings.environment) argv.tail with
  | .error error => Invocation.explain program error
  | .ok .version => Invocation.tellVersion surroundings.build
  | .ok (.run options) => Invocation.pressFor surroundings options

end EcmaPress

import EcmaPress.CommandLine.Invoke

/-!
# The program

Holds the dialogue of an invocation with the real world: the streams of the process, its files
and its environment. All decisions are taken in the dialogue. An executable chooses the library of
legacy character sets.
-/

namespace EcmaPress
namespace Console

/-- The number of a system error, where the error has one. -/
def systemNumber? : IO.Error → Option UInt32
  | .alreadyExists _ n _ | .otherError n _ | .resourceBusy n _ | .resourceVanished n _
  | .unsupportedOperation n _ | .hardwareFault n _ | .unsatisfiedConstraints n _
  | .illegalOperation n _ | .protocolError n _ | .timeExpired n _ | .interrupted _ n _
  | .noFileOrDirectory _ n _ | .invalidArgument _ n _ | .permissionDenied _ n _
  | .resourceExhausted _ n _ | .inappropriateType _ n _ | .noSuchThing _ n _ => some n
  | .unexpectedEof | .userError _ => none

/-- An error of a stream. The runtime may pass the number of a system error on with its sign
    turned, as a number of 32 bits. -/
def streamError (error : IO.Error) : StreamError :=
  match systemNumber? error with
  | some number => .system (if number < 2147483648 then number else 0 - number).toNat
  | none => .other (toString error)

/-- Reads a stream to its end, behind the bytes that have been read. -/
partial def readToEnd (stream : IO.FS.Stream) (done : ByteArray) : IO ByteArray := do
  let chunk ← stream.read 65536
  if chunk.isEmpty then return done
  readToEnd stream (done ++ chunk)

/-- Makes a call. The runtime knows paths as texts only. -/
def perform : (c : Call) → IO c.Answer
  | .readStandard => do
    let bytes ← readToEnd (← IO.getStdin) .empty
    return bytes.toList
  | .readFile path => do
    let bytes ← IO.FS.readBinFile path.text
    return bytes.toList
  | .writeStandard bytes => do (← IO.getStdout).write ⟨bytes.toArray⟩
  | .flushStandard => do (← IO.getStdout).flush
  | .writeFile path bytes => IO.FS.writeBinFile path.text ⟨bytes.toArray⟩

/-- Writes a text to the standard error, which may be closed. -/
def complain (text : String) : IO Unit := do
  try
    (← IO.getStderr).putStr text
  catch _ => pure ()

/-- Holds a dialogue. Nothing interrupts it but the system. -/
def hold {α : Type} (filter : Filter) : Dialogue α → IO α
  | .done value => pure value
  | .call c next => do
    let answer ← try
        let answer ← perform c
        pure (.ok answer)
      catch error => pure (.error (streamError error))
    hold filter (next answer)
  | .askInterrupted next => hold filter (next false)
  | .report r next => do
    if filter.admits r then complain (r.text ++ "\n")
    hold filter next
  | .complain text next => do
    complain text
    hold filter next

/-- The variables of the environment that matter. -/
def environment : IO (List (String × String)) := do
  let names := ["LC_ALL", "LC_CTYPE", "LANG", "PATH", "CARGO", "CRIMP_LOG"]
  let values ← names.mapM fun name => do return (← IO.getEnv name).map fun value => (name, value)
  return values.filterMap id

/-- The working directory. -/
def workingDirectory : IO (Except StreamError Path) := do
  try
    return .ok (.ofString (← IO.currentDir).toString)
  catch error => return .error (streamError error)

/-- Runs the program for some arguments, and answers with its exit code. -/
def run [LegacyCoding] (arguments : List String) : IO UInt32 := do
  let settings ← environment
  let lookup (name : String) := settings.lookup name
  let executable := (← IO.appPath).toString
  let place := (Path.directory executable).text
  let surroundings : Surroundings := {
    environment := lookup
    directory := ← workingDirectory
    standard := some (Charset.preferred lookup)
    build := ⟨place, place, executable, "native"⟩ }
  let code ← hold (filterOf lookup) (invoke surroundings (executable :: arguments))
  return UInt32.ofNat code

end Console
end EcmaPress

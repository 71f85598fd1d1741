import EcmaPress.CommandLine.Misplaced
import EcmaPress.CommandLine.Program
import EcmaPress.CommandLine.Usage
import EcmaPress.Options
import EcmaPress.Text.Similarity

/-!
# Reading the command line

Words are read from left to right. The values of an argument are collected first and settled
later, when the next known flag or the end has been reached, so an unknown flag is reported
before a bad value. Settling checks in this order: that there is a value, that the flag is given
once, and that the value is one.
-/

namespace EcmaPress

/-- What a command line asks for. -/
inductive Request where
  | version
  | run (options : Options)
deriving DecidableEq, Repr

/-- What has been settled: the flags that were given, and the options they add up to. -/
structure Settled where
  flags : List Flag
  options : Options
deriving DecidableEq, Repr

namespace Settled

/-- A path, which cannot be empty. -/
def pathOf (argument : Argument) (text : String) : Except UsageError Path :=
  if text = "" then .error (.missingValue argument) else .ok (.ofString text)

/-- Some options with a flag. Its value is the empty text where none is given. -/
def apply (options : Options) (flag : Flag) (value : String) : Except UsageError Options :=
  match flag with
  | .output => do
    let path ← pathOf (.flag .output) value
    return { options with output := some path }
  | .mangle => .ok { options with mangle := true }
  | .pretty => .ok { options with pretty := true }
  | .sourceMap => .ok { options with sourceMap := .ofFlag (some value) }
  | .obfuscate => .ok { options with obfuscate := true }
  | .dropSemicolons => .ok { options with dropSemicolons := true }
  | .indentWidth =>
    match readNumber value with
    | .ok width => .ok { options with indentWidth := width }
    | .error fault => .error (.invalidWidth value fault)
  | .encoding =>
    match Charset.ofLabel? value with
    | some charset => .ok { options with charset }
    | none => .error (.unknownEncoding value)
  | .version => .ok options
  | .help => .error .help

/-- Settles a flag. -/
def addFlag (settled : Settled) (flag : Flag) (value : Option String) :
    Except UsageError Settled :=
  if flag.arity = .required ∧ value = none then .error (.missingValue (.flag flag))
  else if flag ∈ settled.flags then .error (.repeated flag)
  else do
    let options ← apply settled.options flag (value.getD "")
    return ⟨flag :: settled.flags, options⟩

/-- Settles some inputs. -/
def addInputs (settled : Settled) (inputs : List String) : Except UsageError Settled := do
  let paths ← inputs.mapM (pathOf .inputs)
  return { settled with
    options := { settled.options with inputs := settled.options.inputs ++ paths } }

end Settled

/-- The argument whose values are being collected. -/
inductive Pending where
  | nothing
  | inputs (texts : List String)
  | flag (flag : Flag) (value : Option String)
deriving DecidableEq, Repr

/-- A command line that has been read up to some word. -/
structure Reader where
  settled : Settled
  pending : Pending := .nothing
deriving DecidableEq, Repr

namespace Reader

/-- Settles what is pending. -/
def settle (reader : Reader) : Except UsageError Settled :=
  match reader.pending with
  | .nothing => .ok reader.settled
  | .inputs texts => reader.settled.addInputs texts
  | .flag f value => reader.settled.addFlag f value

/-- Reads a flag whose value, if it takes one, is part of the word. -/
def giveFlag (reader : Reader) (flag : Flag) (value : Option String) :
    Except UsageError Reader := do
  let settled ← reader.settle
  return { settled := ← settled.addFlag flag value }

/-- Reads a flag whose value, if any, is still to come. -/
def awaitValue (reader : Reader) (flag : Flag) : Except UsageError Reader := do
  let settled ← reader.settle
  return { settled, pending := .flag flag none }

/-- Reads an input. -/
def giveInput (reader : Reader) (text : String) : Except UsageError Reader :=
  match reader.pending with
  | .inputs texts => .ok { reader with pending := .inputs (texts ++ [text]) }
  | _ => do
    let settled ← reader.settle
    return { settled, pending := .inputs [text] }

/-- Reads a word that is not a flag: the value that the flag before waits for, or an input. -/
def givePlain (reader : Reader) (text : String) : Except UsageError Reader :=
  match reader.pending with
  | .flag f none => .ok { reader with pending := .flag f (some text) }
  | _ => reader.giveInput text

/-- Reads a long flag. -/
def giveLong (reader : Reader) (name : String) (value : Option String) :
    Except UsageError Reader :=
  match Flag.ofLong? name with
  | none => .error (.unknownFlag ("--" ++ name) (Similarity.best? name Flag.long Flag.all))
  | some flag =>
    match flag.arity, value with
    | .noValue, some value => .error (.unneededValue flag value)
    | .noValue, none => reader.giveFlag flag none
    | _, some value => reader.giveFlag flag (some value)
    | _, none => reader.awaitValue flag

/-- Reads the letters of short flags. What stands behind a letter that takes a value is the
value, without an equals sign before it. -/
def giveShorts (reader : Reader) : List Char → Except UsageError Reader
  | [] => .ok reader
  | c :: rest =>
    match Flag.ofShort? c with
    | none => .error (.unknownFlag ("-" ++ c.toString) none)
    | some flag =>
      match flag.arity, rest with
      | .noValue, rest => do (← reader.giveFlag flag none).giveShorts rest
      | _, [] => reader.awaitValue flag
      | _, '=' :: value => reader.giveFlag flag (some (String.ofList value))
      | _, value => reader.giveFlag flag (some (String.ofList value))

/-- Reads the words of a command line. -/
def giveWords (reader : Reader) : List String → Except UsageError Reader
  | [] => .ok reader
  | text :: rest =>
    match Word.ofString text with
    | .mark => rest.foldlM giveInput reader
    | .long name value => do (← reader.giveLong name value).giveWords rest
    | .shorts letters => do (← reader.giveShorts letters).giveWords rest
    | .plain text => do (← reader.givePlain text).giveWords rest

end Reader

/-- What some words ask for, if files are in a character set unless a flag names another. -/
def requestOf (charset : Charset) (words : List String) : Except UsageError Request :=
  match misplaced? none .noValue words with
  | some (input, flag) => .error (.misplacedInput input flag)
  | none => do
    let settled ← (← Reader.giveWords ⟨⟨[], { charset }⟩, .nothing⟩ words).settle
    return if .version ∈ settled.flags then .version else .run settled.options

end EcmaPress

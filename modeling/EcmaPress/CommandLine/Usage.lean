import EcmaPress.CommandLine.Flag
import EcmaPress.Text.Number
import EcmaPress.Text.Terminal

/-!
# Usage

What the program says about its command line: the line that sums it up, the help, and the
errors. An error is kept as a cause; `UsageError.message` words it. Messages are written in spans
of different styles and are told without the styles. What steers a terminal in the words that
they quote is left out as well, except in those about misplaced inputs.
-/

namespace EcmaPress

/-- What a value can be missing from or given to. -/
inductive Argument where
  | inputs
  | flag (flag : Flag)
deriving DecidableEq, Repr

/-- An argument as messages show it. -/
def Argument.shown : Argument → String
  | .inputs => "[input_file]..."
  | .flag f => f.shown

/-- Why a command line starts no run. A call for help counts as one. -/
inductive UsageError where
  | misplacedInput (input flag : String)
  | missingValue (argument : Argument)
  | repeated (flag : Flag)
  | invalidWidth (value : String) (fault : NumberFault)
  | unknownEncoding (value : String)
  | unneededValue (flag : Flag) (value : String)
  | unknownFlag (word : String) (similar : Option Flag)
  | help
deriving DecidableEq, Repr

/-- The command line in one line. -/
def synopsis (program : String) : String :=
  s!"{program} [input_file [input_file ...]] [-h] [-O <output_path>] [-m] [-p] " ++
    "[-s [<sourcemap_path>]] [--version] [-o] [--drop-semi] [--indent-width n] " ++
    "[--encoding <codec>]"

/-- The line that sums up the command line. -/
def usageLine (program : String) : String :=
  Spans.forTerminal ["Usage:", s!" {synopsis program}"]

/-- The lines of the help about the arguments. -/
def argumentLines : List String := [
  "  [input_file]...  Path(s) to input file(s); standard input when omitted",
  "",
  "Options:",
  "  -O, --output-path <output_path>      Output file path",
  "  -m, --mangle                         Enable all basic mangling options",
  "  -p, --pretty-print                   Use the pretty printer (omit for the minify printer)",
  "  -s, --source-map [<sourcemap_path>]  Enable source map; defaults to <output_path>.map, " ++
    "written inline as a data URL when identical to <output_path> or when writing to stdout",
  "      --version                        Show version information",
  "      --indent-width <n>               Indentation width for the pretty printer [default: 4]",
  "      --encoding <codec>               Encoding for file-based I/O (utf-8, ascii, latin-1, " ++
    "shift_jis, cp1252, ...); defaults to the locale",
  "  -h, --help                           Print help",
  "",
  "Basic mangling options:",
  "  -o, --obfuscate  Obfuscate (mangle) names",
  "      --drop-semi  Drop unneeded semicolons",
  ""]

/-- The help. -/
def helpText (program : String) : String :=
  Spans.forTerminal [
    "Minify or pretty-print JavaScript (ES5) sources\n\n",
    "Usage:", s!" {synopsis program}\n\n",
    "Arguments:", "\n" ++ "\n".intercalate argumentLines]

namespace UsageError

/-- The exit code of a program that ends with an error. -/
def exitCode : UsageError → Nat
  | .help => 0
  | _ => 2

/-- Whether a message is asked for, and so no error. -/
def isAnswer (error : UsageError) : Bool := error = .help

/-- The span that leads to the hint at the help, behind some text, and the hint. -/
def hint (text : String) : Spans :=
  [text ++ "\n\nFor more information, try '", "--help", "'.\n"]

/-- A message about a value: the hint at the help stands before the usage. The last span of the
text goes on with the hint. -/
def aboutValue (program : String) (spans : Spans) (last : String) : String :=
  Spans.forTerminal ("error:" :: spans ++ hint last) ++ s!"\n{usageLine program}\n"

/-- A message about a flag: the hint at the help stands behind the usage. -/
def aboutFlag (program : String) (spans : Spans) : String :=
  Spans.forTerminal
    ("error:" :: spans ++ ["\n\n", "Usage:"] ++ hint s!" {synopsis program}")

/-- The message of an error, for a program of some name. -/
def message (program : String) : UsageError → String
  | .misplacedInput input flag =>
    s!"error: input file '{input}' must come before the first flag '{flag}'\n\n" ++
      s!"{usageLine program}\n"
  | .missingValue argument =>
    aboutValue program [" a value is required for '", argument.shown]
      "' but none was supplied"
  | .repeated flag =>
    aboutFlag program [" the argument '", flag.shown, "' cannot be used multiple times"]
  | .invalidWidth value fault =>
    aboutValue program [" invalid value '", value, "' for '", Flag.indentWidth.shown]
      s!"': {fault.message}"
  | .unknownEncoding value =>
    aboutValue program [" invalid value '", value, "' for '", Flag.encoding.shown]
      s!"': unknown encoding: {value}"
  | .unneededValue flag value =>
    aboutFlag program [" unexpected value '", value, "' for '", flag.shown,
        "' found; no more were expected"] ++
      s!"\n{usageLine program}\n"
  | .unknownFlag word none =>
    aboutFlag program [" unexpected argument '", word, "' found\n\n  ", "tip:", " to pass '",
      word, "' as a value, use '", "-- " ++ word, "'"]
  | .unknownFlag word (some flag) =>
    aboutFlag program [" unexpected argument '", word, "' found\n\n  ", "tip:",
      " a similar argument exists: '", "--" ++ flag.long, "'"]
  | .help => helpText program

end UsageError
end EcmaPress

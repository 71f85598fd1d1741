import EcmaPress.Path

/-!
# Flags

The flags of the command line, how they are written, and whether they take a value.
-/

namespace EcmaPress

/-- The flags of the command line. -/
inductive Flag where
  | output
  | mangle
  | pretty
  | sourceMap
  | version
  | obfuscate
  | dropSemicolons
  | indentWidth
  | encoding
  | help
deriving DecidableEq, Repr

/-- Whether a flag takes a value. -/
inductive Arity where
  | noValue
  | optional
  | required
deriving DecidableEq, Repr

namespace Flag

/-- Every flag. -/
def all : List Flag :=
  [.output, .mangle, .pretty, .sourceMap, .version, .obfuscate, .dropSemicolons, .indentWidth,
    .encoding, .help]

/-- The long name of a flag. -/
def long : Flag → String
  | .output => "output-path"
  | .mangle => "mangle"
  | .pretty => "pretty-print"
  | .sourceMap => "source-map"
  | .version => "version"
  | .obfuscate => "obfuscate"
  | .dropSemicolons => "drop-semi"
  | .indentWidth => "indent-width"
  | .encoding => "encoding"
  | .help => "help"

/-- The letter of a flag. -/
def short? : Flag → Option Char
  | .output => some 'O'
  | .mangle => some 'm'
  | .pretty => some 'p'
  | .sourceMap => some 's'
  | .obfuscate => some 'o'
  | .help => some 'h'
  | .version | .dropSemicolons | .indentWidth | .encoding => none

/-- Whether a flag takes a value. -/
def arity : Flag → Arity
  | .output | .indentWidth | .encoding => .required
  | .sourceMap => .optional
  | .mangle | .pretty | .version | .obfuscate | .dropSemicolons | .help => .noValue

/-- A flag as messages show it, with its value. -/
def shown : Flag → String
  | .output => "--output-path <output_path>"
  | .sourceMap => "--source-map [<sourcemap_path>]"
  | .indentWidth => "--indent-width <n>"
  | .encoding => "--encoding <codec>"
  | flag => "--" ++ flag.long

/-- The flag with a long name. -/
def ofLong? (name : String) : Option Flag :=
  all.find? fun flag => flag.long = name

/-- The flag with a letter. -/
def ofShort? (c : Char) : Option Flag :=
  all.find? fun flag => flag.short? = some c

end Flag

/-- How a word of the command line is to be read. -/
inductive Word where
  /-- The mark behind which every word is an input. -/
  | mark
  /-- A long flag, with what stands behind an equals sign. -/
  | long (name : String) (value : Option String)
  /-- The letters of some short flags, with what may be the value of one. -/
  | shorts (letters : List Char)
  /-- An input, or the value of the flag before. -/
  | plain (text : String)
deriving DecidableEq, Repr

/-- A text in two at the first equals sign, which neither part keeps. -/
def splitAtEquals (text : List Char) : List Char × Option (List Char) :=
  match text.dropWhile (· ≠ '=') with
  | [] => (text, none)
  | _ :: value => (text.takeWhile (· ≠ '='), some value)

/-- How a word is to be read. A single hyphen is plain. -/
def Word.ofString (text : String) : Word :=
  match text.toList with
  | ['-', '-'] => .mark
  | '-' :: '-' :: rest =>
    let (name, value) := splitAtEquals rest
    .long (String.ofList name) (value.map String.ofList)
  | '-' :: c :: rest => .shorts (c :: rest)
  | _ => .plain text

end EcmaPress

/-!
# Texts for a terminal

A word of the command line may hold characters that steer a terminal instead of being shown. A
message that quotes the word leaves them out: control characters other than white space, and
whole sequences that an escape character begins.
-/

namespace EcmaPress

/-- What a terminal is reading. -/
inductive TerminalMode where
  /-- Text to show. -/
  | text
  /-- A sequence of which only the escape character has been read. -/
  | escape
  /-- A sequence that ends with a character from `0` up. -/
  | short
  /-- A sequence with parameters, which ends with a character from `@` up. -/
  | control
  /-- A command, which ends with a bell. -/
  | command
  /-- The head of a string for a device, of which nothing has been read. -/
  | device
  /-- The head of a string for a device, behind its first parameter. -/
  | parameters
  /-- The head of a string for a device, behind its parameters. -/
  | intermediates
  /-- A string that is not for the screen, which ends with a terminator. -/
  | string
deriving DecidableEq, Repr

namespace TerminalMode

/-- White space that a terminal acts on. -/
def isSpacing (c : Char) : Bool :=
  c = '\t' || c = '\n' || c = '\x0c' || c = '\r'

/-- Whether a terminal shows a character where it reads text. -/
def isShown (c : Char) : Bool :=
  isSpacing c || (' ' ≤ c && c ≠ '\x7f')

/-- Whether a character from the blank up has seven bits and is no deletion. -/
def isBasic (c : Char) : Bool :=
  ' ' ≤ c && c < '\x7f'

/-- Whether a byte of a character is the terminator of strings. -/
def holdsTerminator (c : Char) : Bool :=
  (String.utf8EncodeChar c).contains 0x9C

/-- What is read behind the character that follows an escape character. -/
def afterEscape (c : Char) : TerminalMode :=
  if c < '0' then .short
  else if c = '[' then .control
  else if c = ']' then .command
  else if c = 'P' then .device
  else if c = 'X' || c = '^' || c = '_' then .string
  else .text

/-- What is read behind a basic character. -/
def afterBasic (c : Char) : TerminalMode → TerminalMode
  | .text => .text
  | .escape => afterEscape c
  | .short => if c < '0' then .short else .text
  | .control => if c < '@' then .control else .text
  | .command => .command
  | .device => if c < '0' then .intermediates else if c < '@' then .parameters else .string
  | .parameters =>
    if c < '0' then .intermediates else if c < '<' then .parameters else .string
  | .intermediates => if c < '0' then .intermediates else .string
  | .string => .string

/-- Whether a terminal acts on white space inside of what it is reading, and so stops to read
it. -/
def breaksAtSpacing : TerminalMode → Bool
  | .text | .escape | .short | .control => true
  | .command | .device | .parameters | .intermediates | .string => false

/-- What is read behind a character that does not begin anything. -/
def next (mode : TerminalMode) (c : Char) : TerminalMode :=
  if mode.breaksAtSpacing && isSpacing c then .text
  else if mode = .command && c = '\x07' then .text
  else if mode = .string && holdsTerminator c then .text
  else if isBasic c then mode.afterBasic c
  else mode

/-- Whether a terminal shows a character or acts on it as white space, and what it reads
behind it. Two characters stop every sequence. -/
def step (mode : TerminalMode) (c : Char) : Bool × TerminalMode :=
  if c = '\x1b' then (false, .escape)
  else if c = '\x18' || c = '\x1a' then (false, .text)
  else ((mode = .text && isShown c) || (mode.breaksAtSpacing && isSpacing c), mode.next c)

/-- The characters of a text that a terminal in some mode shows. -/
def visible (mode : TerminalMode) : List Char → List Char
  | [] => []
  | c :: rest =>
    let (shows, mode) := mode.step c
    if shows then c :: mode.visible rest else mode.visible rest

end TerminalMode

/-- A text without what steers a terminal. -/
def forTerminal (text : String) : String :=
  String.ofList (TerminalMode.text.visible text.toList)

/-- A text as spans that differ in style. A change of style begins a sequence of its own and so
ends any other. -/
abbrev Spans := List String

/-- A text of spans without what steers a terminal. -/
def Spans.forTerminal (spans : Spans) : String :=
  String.join (spans.map EcmaPress.forTerminal)

end EcmaPress

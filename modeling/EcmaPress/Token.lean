import EcmaPress.Text.CharClass

/-!
# Tokens

The words and signs of the language. Reserved words are tokens of kind `name`; that a word is
reserved is asked of its spelling, so a word with an escape in it is never reserved.
-/

namespace EcmaPress

/-- The kinds of token. A `/` is read as `punct` unless an operand is wanted, where it begins a
token of kind `regex`. -/
inductive TokenKind where
  | name
  | punct
  | number
  | string
  | regex
  | endOfText
deriving DecidableEq, Repr, Inhabited

/-- A token: its spelling, where it begins, and whether a line ends between it and the token
before it. -/
structure Token where
  kind : TokenKind
  text : String
  pos : Position
  newlineBefore : Bool
deriving DecidableEq, Repr, Inhabited

/-- The words that are never identifiers. -/
def keywords : List String :=
  ["break", "case", "catch", "continue", "debugger", "default", "delete", "do", "else",
    "finally", "for", "function", "if", "in", "instanceof", "new", "return", "switch", "this",
    "throw", "try", "typeof", "var", "void", "while", "with", "class", "const", "enum",
    "export", "extends", "import", "super", "null", "true", "false"]

/-- The words that strict mode code reserves besides `keywords`. -/
def strictKeywords : List String :=
  ["implements", "interface", "let", "package", "private", "protected", "public", "static",
    "yield"]

/-- Every word that is reserved in some mode, in ascending order: a new name must avoid them
all. -/
def reservedWords : List String :=
  (keywords ++ strictKeywords).mergeSort (fun a b => decide (a ≤ b))

/-- Whether a word is never an identifier. -/
def isReserved (word : String) : Bool :=
  keywords.contains word

/-- The signs of the language, longer ones first, so that the first one that fits is the
longest. -/
def punctuators : List String :=
  [">>>=", "===", "!==", ">>>", "<<=", ">>=", "==", "!=", "<=", ">=", "&&", "||", "++", "--",
    "+=", "-=", "*=", "/=", "%=", "&=", "|=", "^=", "<<", ">>", "\x7b", "\x7d", "(", ")", "[",
    "]", ";", ",", "<", ">", "+", "-", "*", "/", "%", "&", "|", "^", "!", "~", "?", ":", "=",
    "."]

namespace Token

/-- Whether the token is the sign or the word spelled `text`. -/
def is (token : Token) (text : String) : Bool :=
  (token.kind == .punct || token.kind == .name) && token.text == text

/-- Whether the token stands for the end of the text. -/
def isEnd (token : Token) : Bool :=
  token.kind == .endOfText

/-- Whether the token is a word that may name something. -/
def isIdentifier (token : Token) : Bool :=
  token.kind == .name && !isReserved token.text

end Token
end EcmaPress

import EcmaPress.Text.Alphabetic
import EcmaPress.Text.Position

/-!
# Character classes of ECMAScript source

Which characters separate tokens and which build identifiers. White space is that of Unicode
together with the byte order mark; line terminators are kept apart from it, because they take
part in semicolon insertion.
-/

namespace EcmaPress

/-- White space inside a line. -/
def isBlank (c : Char) : Bool :=
  c == ' ' || c == '\t' || c == '\x0b' || c == '\x0c' || c == '\u0085' || c == '\u00a0' ||
    c == '\u1680' || ('\u2000' ≤ c && c ≤ '\u200a') || c == '\u202f' || c == '\u205f' ||
    c == '\u3000' || c == '\ufeff'

/-- White space of Unicode, line terminators included and the byte order mark not. -/
def isWhiteSpace (c : Char) : Bool :=
  (isBlank c && c != '\ufeff') || isLineTerminator c

/-- A text without the white space at its ends. -/
def trimWhiteSpace (text : List Char) : List Char :=
  ((text.dropWhile isWhiteSpace).reverse.dropWhile isWhiteSpace).reverse

/-- A character that may begin an identifier. -/
def isIdStart (c : Char) : Bool :=
  c == '$' || c == '_' || isAlphabetic c

/-- A character that may continue an identifier: also numbers and the two joiners. -/
def isIdPart (c : Char) : Bool :=
  isIdStart c || isNumeric c || c == '\u200c' || c == '\u200d'

/-- A hexadecimal digit of either case. -/
def isHexDigit (c : Char) : Bool :=
  c.isDigit || ('a' ≤ c && c ≤ 'f') || ('A' ≤ c && c ≤ 'F')

end EcmaPress

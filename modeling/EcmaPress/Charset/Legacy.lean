import EcmaPress.Charset.Coding
import EcmaPress.Charset.SingleByte

/-!
# Legacy character sets

The sets that are not read and written here but by a library. The library is a parameter: it is
given a whole text or all the bytes, and where it stops it tells how far it has come and what it
has stopped at. What is at fault, and where that stands, is worked out from this.
-/

namespace EcmaPress

/-- The sets that are left to the library. -/
inductive LegacyCharset where
  | singleByte (set : SingleByte)
  | userDefined
  | shiftJis
  | eucJp
  | iso2022Jp
  | gbk
  | gb18030
  | big5
  | eucKr
deriving DecidableEq, Repr

/-- Where a library stops reading. It has consumed some bytes, at the end of which are `bad` bytes
that are malformed and behind them `extra` bytes that are not. -/
structure Malformed where
  consumed : Nat
  bad : Nat
  extra : Nat
deriving DecidableEq, Repr

/-- Where a library stops writing. It has consumed some bytes of the text in UTF-8, and says which
character at their end has no bytes. -/
structure Unmappable where
  consumed : Nat
  char : Char
deriving DecidableEq, Repr

/-- A library of legacy sets: what it makes of all the bytes that are to be read, and of a whole
text that is to be written. -/
class LegacyCoding where
  decode : LegacyCharset → List UInt8 → Except Malformed (List Char)
  encode : LegacyCharset → List Char → Except Unmappable (List UInt8)

namespace LegacyCoding

/-- The library that knows nothing but what all legacy sets have in common: the characters below
128, without the three that shift between tables in some sets, are their own bytes. -/
scoped instance common : LegacyCoding where
  decode _ bytes :=
    match bytes.span (· < 0x80) with
    | (front, []) => .ok (front.map fun byte => Char.ofNat byte.toNat)
    | (front, _ :: _) => .error ⟨front.length + 1, 1, 0⟩
  encode _ text :=
    match text.span (·.toNat < 0x80) with
    | (front, []) => .ok (front.map fun c => UInt8.ofNat c.toNat)
    | (front, c :: _) => .error ⟨front.length + c.utf8Size, c⟩

end LegacyCoding

namespace LegacyCharset

/-- The name of a set. -/
def name : LegacyCharset → String
  | .singleByte set => set.name
  | .userDefined => "x-user-defined"
  | .shiftJis => "Shift_JIS"
  | .eucJp => "EUC-JP"
  | .iso2022Jp => "ISO-2022-JP"
  | .gbk => "GBK"
  | .gb18030 => "gb18030"
  | .big5 => "Big5"
  | .eucKr => "EUC-KR"

/-- What is said of a character, or of bytes, without a counterpart in the set. -/
def reason : LegacyCharset → CodingFault
  | .singleByte _ | .userDefined => .undefined
  | .shiftJis | .eucJp | .iso2022Jp | .gbk | .gb18030 | .big5 | .eucKr => .sequence

/-- The bytes at fault. The byte behind what can be read is one of them, also where the library
counts none. -/
def misread (set : LegacyCharset) (bytes : List UInt8) (stop : Malformed) : Misread :=
  let stops := stop.consumed - stop.extra
  let start := stops - stop.bad
  ⟨start, (bytes.drop start).take (max stops (start + 1) - start), set.reason⟩

/-- How many characters of a text begin before a byte of it in UTF-8. -/
def charsBefore (offset : Nat) : List Char → Nat
  | [] => 0
  | c :: rest => if offset = 0 then 0 else charsBefore (offset - c.utf8Size) rest + 1

variable [coding : LegacyCoding]

/-- Whether a character by itself has bytes. -/
def encodes (set : LegacyCharset) (c : Char) : Bool :=
  (coding.encode set [c]).isOk

/-- The characters at fault, which begin as many bytes before the place of the stop as the
character has that the library names. It names another one than stands there for the three that
shift between tables; where the text does not go back so far it has no answer, and counts from its
start here. -/
def unwritten (set : LegacyCharset) (text : List Char) (stop : Unmappable) : Unwritten :=
  let position := charsBefore (stop.consumed - stop.char.utf8Size) text
  let rest := text.drop position
  ⟨position, rest.headD '\x00', rest.tail.takeWhile (!set.encodes ·)⟩

/-- The characters that some bytes stand for. -/
def decode (set : LegacyCharset) (bytes : List UInt8) : Except Misread (List Char) :=
  (coding.decode set bytes).mapError (set.misread bytes)

/-- The bytes that stand for some characters. -/
def encode (set : LegacyCharset) (text : List Char) : Except Unwritten (List UInt8) :=
  (coding.encode set text).mapError (set.unwritten text)

end LegacyCharset
end EcmaPress

import EcmaPress.Charset.Legacy
import EcmaPress.Charset.Utf8

/-!
# Character sets

The sets that sources may be read with and output written with. UTF-8, ASCII and Latin-1 are read
and written here, all others by a library of legacy sets. `Charset.decode` and `Charset.encode` are
strict: they answer with all of the text or bytes, or with an error that names the first bytes or
characters that have no counterpart.
-/

namespace EcmaPress

/-- A character set together with its encoding. -/
inductive Charset where
  | utf8
  | ascii
  | latin1
  | legacy (set : LegacyCharset)
deriving DecidableEq, Repr

instance : Inhabited Charset := ⟨.utf8⟩

namespace Charset

/-- The name of a character set. -/
def name : Charset → String
  | .utf8 => "utf-8"
  | .ascii => "ascii"
  | .latin1 => "latin-1"
  | .legacy set => set.name

/-- What is said of a character without bytes in the set. -/
def reason : Charset → CodingFault
  | .utf8 => .startByte
  | .ascii => .ordinal 128
  | .latin1 => .ordinal 256
  | .legacy set => set.reason

/-- The character of a byte that lies below a limit and is the character's own number. -/
def charBelow (limit : Nat) (byte : UInt8) : Option Char :=
  if byte.toNat < limit then some (Char.ofNat byte.toNat) else none

/-- The byte of a character whose number lies below a limit. -/
def byteBelow (limit : Nat) (c : Char) : Option (List UInt8) :=
  if c.toNat < limit then some [UInt8.ofNat c.toNat] else none

variable [LegacyCoding]

/-- The characters that some bytes stand for, or what cannot be read. -/
def read : Charset → List UInt8 → Except Misread (List Char)
  | .utf8 => Utf8.decoder.decode
  | .ascii => (Decoder.ofByte (charBelow 128) (.ordinal 128)).decode
  | .latin1 => (Decoder.ofByte (charBelow 256) (.ordinal 256)).decode
  | .legacy set => set.decode

/-- The bytes that stand for some characters, or what cannot be written. -/
def write : Charset → List Char → Except Unwritten (List UInt8)
  | .utf8 => Utf8.encoder.encode
  | .ascii => (Encoder.mk (byteBelow 128)).encode
  | .latin1 => (Encoder.mk (byteBelow 256)).encode
  | .legacy set => set.encode

end Charset

/-- Bytes that are no text in a character set. -/
structure DecodeError where
  charset : Charset
  fault : Misread
deriving DecidableEq, Repr

/-- A text that has no bytes in a character set. -/
structure EncodeError where
  charset : Charset
  fault : Unwritten
deriving DecidableEq, Repr

/-- A number in hexadecimal with at least `width` small digits. -/
def paddedHex (width n : Nat) : String :=
  let digits := String.ofList (Nat.toDigits 16 n)
  String.ofList (List.replicate (width - digits.length) '0') ++ digits

/-- The bytes at fault and where they stand. -/
def Misread.span (fault : Misread) : String :=
  match fault.bytes with
  | [byte] => s!"byte 0x{paddedHex 2 byte.toNat} in position {fault.start}"
  | bytes => s!"bytes in position {fault.start}-{fault.start + bytes.length - 1}"

/-- The characters at fault and where they stand; a single one is shown by its number. -/
def Unwritten.span (fault : Unwritten) : String :=
  match fault.more with
  | [] => s!"character '{shown fault.first}' in position {fault.start}"
  | more => s!"characters in position {fault.start}-{fault.start + more.length}"
where
  /-- A character as an escape. -/
  shown (c : Char) : String :=
    if c.toNat < 0x100 then "\\x" ++ paddedHex 2 c.toNat
    else if c.toNat < 0x10000 then "\\u" ++ paddedHex 4 c.toNat
    else "\\U" ++ paddedHex 8 c.toNat

/-- The message of a decoding error. -/
def DecodeError.message (e : DecodeError) : String :=
  s!"'{e.charset.name}' codec can't decode {e.fault.span}: {e.fault.reason.message}"

/-- The message of an encoding error. -/
def EncodeError.message (e : EncodeError) : String :=
  s!"'{e.charset.name}' codec can't encode {e.fault.span}: {e.charset.reason.message}"

namespace Charset

variable [LegacyCoding]

/-- The text that some bytes stand for. -/
def decode (charset : Charset) (bytes : List UInt8) : Except DecodeError String :=
  match charset.read bytes with
  | .ok text => .ok (String.ofList text)
  | .error fault => .error ⟨charset, fault⟩

/-- The bytes that stand for a text. -/
def encode (charset : Charset) (text : String) : Except EncodeError (List UInt8) :=
  match charset.write text.toList with
  | .ok bytes => .ok bytes
  | .error fault => .error ⟨charset, fault⟩

end Charset
end EcmaPress

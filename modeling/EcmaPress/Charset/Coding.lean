/-!
# Decoders and encoders

A decoder reads one character after the other from the front of some bytes, an encoder writes
one after the other. Each stops at the first thing it cannot read or write and says where it
stands.
-/

namespace EcmaPress

/-- Why some bytes stand for no character, or a character has no bytes. -/
inductive CodingFault where
  | ordinal (limit : Nat)
  | endOfData
  | continuationByte
  | startByte
  | undefined
  | sequence
deriving DecidableEq, Repr

/-- The wording of a coding fault. -/
def CodingFault.message : CodingFault → String
  | .ordinal limit => s!"ordinal not in range({limit})"
  | .endOfData => "unexpected end of data"
  | .continuationByte => "invalid continuation byte"
  | .startByte => "invalid start byte"
  | .undefined => "character maps to <undefined>"
  | .sequence => "illegal multibyte sequence"

/-- What a decoder makes of a byte and those behind it: a character, or a fault. Either way
`more` counts the bytes behind the first one that belong to it. -/
inductive Reading where
  | char (c : Char) (more : Nat)
  | fault (reason : CodingFault) (more : Nat)

/-- A way to read bytes as characters. -/
structure Decoder where
  read : UInt8 → List UInt8 → Reading

/-- Bytes that a decoder cannot read, and how many bytes stand before them. -/
structure Misread where
  start : Nat
  bytes : List UInt8
  reason : CodingFault
deriving DecidableEq, Repr

namespace Decoder

/-- Reads bytes to their end. `done` are the characters before them, the last one first, and
`position` is the number of bytes before them. -/
def readAll (decoder : Decoder) (position : Nat) (done : List Char) :
    List UInt8 → Except Misread (List Char)
  | [] => .ok done.reverse
  | byte :: rest =>
    match decoder.read byte rest with
    | .char c more => decoder.readAll (position + 1 + more) (c :: done) (rest.drop more)
    | .fault reason more => .error ⟨position, byte :: rest.take more, reason⟩
termination_by bytes => bytes.length
decreasing_by
  simp only [List.length_drop, List.length_cons]
  omega

/-- The characters that some bytes stand for. -/
def decode (decoder : Decoder) (bytes : List UInt8) : Except Misread (List Char) :=
  decoder.readAll 0 [] bytes

/-- The decoder that reads every byte for itself. -/
def ofByte (char? : UInt8 → Option Char) (reason : CodingFault) : Decoder where
  read byte _ :=
    match char? byte with
    | some c => .char c 0
    | none => .fault reason 0

end Decoder

/-- A way to write characters as bytes. -/
structure Encoder where
  bytes? : Char → Option (List UInt8)

/-- Characters that an encoder cannot write: the first of them, those that follow it without
a writable one between, and how many characters stand before them. -/
structure Unwritten where
  start : Nat
  first : Char
  more : List Char
deriving DecidableEq, Repr

namespace Encoder

/-- Writes characters to their end. `position` is the number of characters before them, and
`done` are the bytes before them, the last one first. -/
def writeAll (encoder : Encoder) (position : Nat) (done : List UInt8) :
    List Char → Except Unwritten (List UInt8)
  | [] => .ok done.reverse
  | c :: rest =>
    match encoder.bytes? c with
    | some bytes => encoder.writeAll (position + 1) (bytes.reverse ++ done) rest
    | none => .error ⟨position, c, rest.takeWhile fun d => (encoder.bytes? d).isNone⟩

/-- The bytes that stand for some characters. -/
def encode (encoder : Encoder) (text : List Char) : Except Unwritten (List UInt8) :=
  encoder.writeAll 0 [] text

end Encoder
end EcmaPress

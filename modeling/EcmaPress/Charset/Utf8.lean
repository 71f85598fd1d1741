import EcmaPress.Charset.Coding

/-!
# UTF-8

The well-formed sequences are told by ranges: each lead byte names the range of every byte that
has to follow it. So surrogates, numbers beyond the last character and forms that are longer
than needed are never read, and a fault covers the longest run of bytes that could have begun a
character.
-/

namespace EcmaPress
namespace Utf8

/-- The ranges of the bytes that follow a lead byte; `none` where no character starts with the
byte. -/
def followers (lead : UInt8) : Option (List (UInt8 × UInt8)) :=
  if lead < 0x80 then some []
  else if lead < 0xC2 then none
  else if lead < 0xE0 then some [(0x80, 0xBF)]
  else if lead = 0xE0 then some [(0xA0, 0xBF), (0x80, 0xBF)]
  else if lead = 0xED then some [(0x80, 0x9F), (0x80, 0xBF)]
  else if lead < 0xF0 then some [(0x80, 0xBF), (0x80, 0xBF)]
  else if lead = 0xF0 then some [(0x90, 0xBF), (0x80, 0xBF), (0x80, 0xBF)]
  else if lead < 0xF4 then some [(0x80, 0xBF), (0x80, 0xBF), (0x80, 0xBF)]
  else if lead = 0xF4 then some [(0x80, 0x8F), (0x80, 0xBF), (0x80, 0xBF)]
  else none

/-- How many bytes lie in the ranges, one after the other from the first. -/
def matching : List (UInt8 × UInt8) → List UInt8 → Nat
  | (low, high) :: ranges, byte :: bytes =>
    if low ≤ byte ∧ byte ≤ high then matching ranges bytes + 1 else 0
  | _, _ => 0

/-- The part of the character's number that its lead byte holds. -/
def leadBits (lead : UInt8) : Nat :=
  if lead < 0x80 then lead.toNat
  else if lead < 0xE0 then lead.toNat % 32
  else if lead < 0xF0 then lead.toNat % 16
  else lead.toNat % 8

/-- The character of a lead byte and its followers, each of which adds six bits. -/
def assemble (lead : UInt8) (trail : List UInt8) : Char :=
  Char.ofNat (trail.foldl (fun n byte => n * 64 + byte.toNat % 64) (leadBits lead))

/-- Reads the character that starts with a byte. -/
def read (lead : UInt8) (rest : List UInt8) : Reading :=
  match followers lead with
  | none => .fault .startByte 0
  | some ranges =>
    let more := matching ranges rest
    if more = ranges.length then .char (assemble lead (rest.take more)) more
    else if more = rest.length then .fault .endOfData more
    else .fault .continuationByte more

/-- Reads UTF-8. -/
def decoder : Decoder := ⟨read⟩

/-- Writes UTF-8. -/
def encoder : Encoder := ⟨fun c => some (String.utf8EncodeChar c)⟩

/-! ## Bytes that need not be UTF-8 -/

/-- A piece of some bytes: a character, or bytes at fault. -/
inductive Piece where
  | char (c : Char)
  | fault (bytes : List UInt8)
deriving DecidableEq, Repr

/-- The pieces that some bytes fall into, one character or fault after the other. -/
def pieces : List UInt8 → List Piece
  | [] => []
  | lead :: rest =>
    match read lead rest with
    | .char c more => .char c :: pieces (rest.drop more)
    | .fault _ more => .fault (lead :: rest.take more) :: pieces (rest.drop more)
termination_by bytes => bytes.length
decreasing_by
  all_goals
    simp only [List.length_drop, List.length_cons]
    omega

/-- The character of a piece. -/
def Piece.char? : Piece → Option Char
  | .char c => some c
  | .fault _ => none

/-- The character that is shown for a piece: the replacement character for a fault. -/
def Piece.shown (piece : Piece) : Char :=
  piece.char?.getD '\uFFFD'

/-- The text of some bytes, if they are UTF-8. -/
def text? (bytes : List UInt8) : Option String :=
  ((pieces bytes).mapM Piece.char?).map String.ofList

/-- The text that is shown for some bytes, with a replacement character for each fault. -/
def lossy (bytes : List UInt8) : String :=
  String.ofList ((pieces bytes).map Piece.shown)

/-- The bytes of a text. -/
def ofString (text : String) : List UInt8 :=
  text.toList.flatMap String.utf8EncodeChar

end Utf8
end EcmaPress

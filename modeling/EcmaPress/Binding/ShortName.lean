/-!
# Short names

The sequence of all names made of letters and digits that begin with a letter, shorter names
first, and names of one length in the order of their characters: small letters, then capital
ones, then digits.
-/

namespace EcmaPress

/-- The characters of short names in their order. The first 52 of them may begin one. -/
def nameChar (digit : Nat) : Char :=
  if digit < 26 then Char.ofNat ('a'.toNat + digit)
  else if digit < 52 then Char.ofNat ('A'.toNat + (digit - 26))
  else Char.ofNat ('0'.toNat + (digit - 52))

/-- The characters of the short name with the given number, counted from zero. A longer name
is a shorter one with one character behind it, and each shorter one has 62 of them. -/
def shortNameChars (index : Nat) : List Char :=
  if index < 52 then [nameChar index]
  else shortNameChars ((index - 52) / 62) ++ [nameChar ((index - 52) % 62)]
termination_by index
decreasing_by omega

/-- The short name with the given number, counted from zero. -/
def shortName (index : Nat) : String :=
  String.ofList (shortNameChars index)

/-- The first `count` short names that are not among `taken`. As no short name comes twice, at
most `taken.length` of them are passed over. -/
def freshNames (taken : List String) (count : Nat) : List String :=
  (((List.range (count + taken.length)).map shortName).filter (!taken.contains ·)).take count

end EcmaPress

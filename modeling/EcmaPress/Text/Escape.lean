import EcmaPress.Pattern.Atom

/-!
# Escapes in names

A name may be written with escapes, each of which stands for a unit of UTF-16. Two spellings are of
one name if they stand for the same units.
-/

namespace EcmaPress

/-- The units of UTF-16 that a character takes. -/
def utf16 (c : Char) : List Nat :=
  if c.toNat < 0x10000 then [c.toNat]
  else [0xd800 + (c.toNat - 0x10000) / 0x400, 0xdc00 + (c.toNat - 0x10000) % 0x400]

/-- The units that a name stands for. Behind the backslash of an escape stand a `u` and four
hexadecimal digits. -/
def codeUnits : List Char → List Nat
  | '\\' :: 'u' :: a :: b :: c :: d :: rest =>
    [a, b, c, d].foldl (fun value digit => 16 * value + Pattern.hexValue digit) 0 :: codeUnits rest
  | c :: rest => utf16 c ++ codeUnits rest
  | [] => []

/-- Whether two spellings are of one name. -/
def sameName (name other : String) : Bool :=
  codeUnits name.toList == codeUnits other.toList

theorem sameName_iff {name other : String} :
    sameName name other = true ↔ codeUnits name.toList = codeUnits other.toList :=
  beq_iff_eq

@[simp] theorem sameName_refl (name : String) : sameName name name = true :=
  sameName_iff.mpr rfl

theorem sameName_symm {name other : String} (h : sameName name other = true) :
    sameName other name = true :=
  sameName_iff.mpr (sameName_iff.mp h).symm

example : sameName "b\\u0061r" "bar" = true := by decide +kernel

end EcmaPress

import EcmaPress.Mapping.Base64

/-!
# Numbers of variable length

A whole number of 64 bits as base 64 digits of five bits each, the lowest ones first. The sign is
the lowest bit of all, and each digit but the last has 32 added to it. To make room for the sign
the highest bit of the number is lost, and a number that comes out negative has no last digit.
-/

namespace EcmaPress
namespace Vlq

/-- A number with its sign moved to the lowest bit. -/
def fold (value : Int64) : Int64 :=
  if value < 0 then (-value) <<< 1 ||| 1 else value <<< 1

/-- A shift of five bits to the right divides by 32 and rounds down. -/
theorem toInt_shiftRight (n : Int64) : (n >>> 5).toInt = n.toInt / 32 := by
  rw [← Int64.toInt_toBitVec, Int64.toBitVec_shiftRight]
  exact BitVec.toInt_sshiftRight.trans (Int.shiftRight_eq_div_pow _ _)

theorem toNat_shiftRight_lt {n : Int64} (h : (0 : Int64) < n >>> 5) :
    (n >>> 5).toInt.toNat < n.toInt.toNat := by
  rw [Int64.lt_iff_toInt_lt, toInt_shiftRight, Int64.toInt_zero] at h
  rw [toInt_shiftRight]
  omega

/-- The digits of a number, the lowest one first. A shift of five bits to the right leaves a
negative number negative, so its digits have no end. -/
def digits? (n : Int64) : Option (List Nat) :=
  let digit := n &&& 31
  let rest := n >>> 5
  if rest = 0 then some [digit.toInt.toNat]
  else if h : 0 < rest then (digits? rest).map ((digit ||| 32).toInt.toNat :: ·)
  else none
termination_by n.toInt.toNat
decreasing_by exact toNat_shiftRight_lt h

/-- The characters of a number. -/
def encode? (value : Int64) : Option (List Char) :=
  (digits? (fold value)).map (·.map Base64.digit)

end Vlq
end EcmaPress

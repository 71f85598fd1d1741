import Mathlib.Data.List.Induction
import Mathlib.Data.List.Nodup
import Mathlib.Data.List.Shortlex
import Mathlib.Data.Set.Function
import EcmaPress.Proofs.NewNames

/-!
# The numeration of short names

Short names are numbered without gaps: every word of letters and digits that begins with a letter
is the short name with one number, and the numbers put the words in order, shorter ones first and
those of one length as in a dictionary.

A name can also be found by a loop: the names of each length are counted off from its number, and
what is left is written in digits. The loop needs no number that is much larger than the one that
it begins with, so machine words do.
-/

namespace EcmaPress

/-! ### Words of letters and digits -/

/-- The characters of short names in their order. -/
def nameChars : List Char :=
  "abcdefghijklmnopqrstuvwxyzABCDEFGHIJKLMNOPQRSTUVWXYZ0123456789".toList

theorem nameChars_eq : nameChars = (List.range 62).map nameChar := rfl

theorem nodup_nameChars : nameChars.Nodup := by
  rw [nameChars_eq]
  refine List.Nodup.map_on (fun a ha b hb heq => ?_) List.nodup_range
  exact nameChar_injective (List.mem_range.mp ha) (List.mem_range.mp hb) heq

theorem getElem?_nameChars {digit : Nat} (h : digit < 62) :
    nameChars[digit]? = some (nameChar digit) := by
  rw [nameChars_eq, List.getElem?_map, List.getElem?_range h]
  rfl

theorem idxOf_nameChar {digit : Nat} (h : digit < 62) :
    nameChars.idxOf (nameChar digit) = digit := by
  obtain ⟨hlt, heq⟩ := List.getElem?_eq_some_iff.mp (getElem?_nameChars h)
  rw [← heq, nodup_nameChars.idxOf_getElem]

/-- A word of ASCII letters and digits that begins with a letter. -/
def IsPlainName (word : List Char) : Prop :=
  ∃ first more, word = first :: more ∧ first.isAlpha = true ∧ ∀ c ∈ more, c.isAlphanum = true

theorem isAlpha_toNat {c : Char} : c.isAlpha = true ↔
    (97 ≤ c.toNat ∧ c.toNat ≤ 122) ∨ (65 ≤ c.toNat ∧ c.toNat ≤ 90) := by
  change (decide (65 ≤ c.val ∧ c.val ≤ 90) ||
    decide (97 ≤ c.val) && decide (c.val ≤ 122)) = true ↔ _
  simp only [Bool.or_eq_true, Bool.and_eq_true, decide_eq_true_eq, UInt32.le_iff_toNat_le]
  exact or_comm

theorem isDigit_toNat {c : Char} : c.isDigit = true ↔ 48 ≤ c.toNat ∧ c.toNat ≤ 57 := by
  simp only [Char.isDigit, Bool.and_eq_true, decide_eq_true_eq, ge_iff_le,
    UInt32.le_iff_toNat_le]
  exact Iff.rfl

theorem eq_nameChar_iff {c : Char} {digit : Nat} (h : digit < 62) : c = nameChar digit ↔ c.toNat =
    if digit < 26 then 97 + digit else if digit < 52 then 39 + digit else digit - 4 := by
  rw [← nameChar_toNat h, Char.toNat_inj]

theorem isAlpha_iff {c : Char} : c.isAlpha = true ↔ ∃ digit < 52, c = nameChar digit := by
  rw [isAlpha_toNat]
  constructor
  · rintro (hsmall | hcapital)
    · exact ⟨c.toNat - 97, by omega, (eq_nameChar_iff (by omega)).mpr (by grind)⟩
    · exact ⟨c.toNat - 39, by omega, (eq_nameChar_iff (by omega)).mpr (by grind)⟩
  · rintro ⟨digit, hdigit, rfl⟩
    rw [nameChar_toNat (by omega)]
    grind

theorem isAlphanum_iff {c : Char} : c.isAlphanum = true ↔ ∃ digit < 62, c = nameChar digit := by
  rw [Char.isAlphanum, Bool.or_eq_true, isAlpha_iff, isDigit_toNat]
  constructor
  · rintro (⟨digit, hdigit, rfl⟩ | hdigit)
    · exact ⟨digit, by omega, rfl⟩
    · exact ⟨c.toNat + 4, by omega, (eq_nameChar_iff (by omega)).mpr (by grind)⟩
  · rintro ⟨digit, hdigit, rfl⟩
    by_cases hletter : digit < 52
    · exact .inl ⟨digit, hletter, rfl⟩
    · rw [nameChar_toNat hdigit]
      grind

theorem isPlainName_singleton {c : Char} : IsPlainName [c] ↔ c.isAlpha = true := by
  constructor
  · rintro ⟨first, more, hword, hfirst, -⟩
    obtain ⟨rfl, -⟩ := List.cons.inj hword
    exact hfirst
  · exact fun h => ⟨c, [], rfl, h, nofun⟩

/-- A plain name goes on with letters and digits. -/
theorem isPlainName_append {word : List Char} (hword : word ≠ []) {c : Char} :
    IsPlainName (word ++ [c]) ↔ IsPlainName word ∧ c.isAlphanum = true := by
  obtain ⟨first, more, rfl⟩ := List.exists_cons_of_ne_nil hword
  constructor
  · rintro ⟨first', more', heq, hfirst, hmore⟩
    rw [List.cons_append] at heq
    obtain ⟨rfl, rfl⟩ := List.cons.inj heq
    rw [List.forall_mem_append, List.forall_mem_singleton] at hmore
    exact ⟨⟨_, _, rfl, hfirst, hmore.1⟩, hmore.2⟩
  · rintro ⟨⟨first', more', heq, hfirst, hmore⟩, hc⟩
    obtain ⟨rfl, rfl⟩ := List.cons.inj heq
    exact ⟨_, _, rfl, hfirst, List.forall_mem_append.mpr ⟨hmore, List.forall_mem_singleton.mpr hc⟩⟩

/-! ### One number for every word -/

theorem shortNameChars_ne_nil (index : Nat) : shortNameChars index ≠ [] := by
  obtain ⟨first, more, hcons, -⟩ := shortNameChars_eq index
  rw [hcons]
  exact List.cons_ne_nil _ _

/-- The names that are longer by one character than the one with the number `front`. -/
theorem shortNameChars_append {front digit : Nat} (h : digit < 62) :
    shortNameChars (52 + 62 * front + digit) = shortNameChars front ++ [nameChar digit] := by
  have hfront : (52 + 62 * front + digit - 52) / 62 = front := by omega
  have hdigit : (52 + 62 * front + digit - 52) % 62 = digit := by omega
  rw [shortNameChars, if_neg (by omega), hfront, hdigit]

theorem isPlainName_shortNameChars (index : Nat) : IsPlainName (shortNameChars index) := by
  induction index using shortNameChars.induct with
  | case1 index h =>
    rw [shortNameChars, if_pos h]
    exact isPlainName_singleton.mpr (isAlpha_iff.mpr ⟨index, h, rfl⟩)
  | case2 index h ih =>
    rw [shortNameChars, if_neg h]
    have hlast : (index - 52) % 62 < 62 := Nat.mod_lt _ (by decide)
    exact (isPlainName_append (shortNameChars_ne_nil _)).mpr
      ⟨ih, isAlphanum_iff.mpr ⟨_, hlast, rfl⟩⟩

/-- Every plain name has a number. -/
theorem exists_shortNameChars {word : List Char} (h : IsPlainName word) :
    ∃ index, shortNameChars index = word := by
  induction word using List.reverseRecOn with
  | nil =>
    obtain ⟨_, _, hword, -⟩ := h
    cases hword
  | append_singleton front c ih =>
    rcases eq_or_ne front [] with rfl | hfront
    · obtain ⟨digit, hdigit, rfl⟩ := isAlpha_iff.mp (isPlainName_singleton.mp h)
      exact ⟨digit, by rw [shortNameChars, if_pos hdigit]; rfl⟩
    · obtain ⟨hplain, hc⟩ := (isPlainName_append hfront).mp h
      obtain ⟨number, rfl⟩ := ih hplain
      obtain ⟨digit, hdigit, rfl⟩ := isAlphanum_iff.mp hc
      exact ⟨_, shortNameChars_append hdigit⟩

/-! ### The order of the words -/

/-- Whether a word comes before another one: a shorter one does, and so does one of the same length
with an earlier character where they differ first. Small letters come before capital ones, and
these before digits. -/
def PrecedesName : List Char → List Char → Prop :=
  List.Shortlex fun c d => nameChars.idxOf c < nameChars.idxOf d

theorem precedesName_of_digits {a b : Nat} (h : a < b) (hb : b < 62) (front : List Char) :
    PrecedesName (front ++ [nameChar a]) (front ++ [nameChar b]) := by
  refine List.Shortlex.append_left ((List.shortlex_singleton_iff _ _).mpr ?_) front
  rwa [idxOf_nameChar (h.trans hb), idxOf_nameChar hb]

/-- What stands behind two words does not change their order, if it is as long for both. -/
theorem PrecedesName.append {s t : List Char} (h : PrecedesName s t) (c d : Char) :
    PrecedesName (s ++ [c]) (t ++ [d]) := by
  rcases List.shortlex_def.mp h with hlen | ⟨hlen, hlex⟩
  · exact .of_length_lt (by simpa using hlen)
  · refine .of_lex (by simpa using hlen) ?_
    clear h
    induction hlex with
    | nil => cases hlen
    | cons _ ih => exact .cons (ih (Nat.succ.inj hlen))
    | rel hfirst => exact .rel hfirst

/-- The numbers put the names in order. -/
theorem shortNameChars_precedes {i j : Nat} (h : i < j) :
    PrecedesName (shortNameChars i) (shortNameChars j) := by
  induction j using shortNameChars.induct generalizing i with
  | case1 j hj =>
    rw [shortNameChars, if_pos (h.trans hj), shortNameChars, if_pos hj]
    exact precedesName_of_digits h (by omega) []
  | case2 j hj ih =>
    rw [shortNameChars.eq_def j, if_neg hj]
    by_cases hi : i < 52
    · rw [shortNameChars, if_pos hi]
      refine .of_length_lt ?_
      have hpos := List.length_pos_iff.mpr (shortNameChars_ne_nil ((j - 52) / 62))
      simpa using hpos
    · rw [shortNameChars, if_neg hi]
      have hle : (i - 52) / 62 ≤ (j - 52) / 62 := Nat.div_le_div_right (by omega)
      rcases Nat.eq_or_lt_of_le hle with heq | hlt
      · rw [heq]
        exact precedesName_of_digits (by omega) (Nat.mod_lt _ (by decide)) _
      · exact (ih hlt).append _ _

/-! ### Names found by a loop -/

/-- Counts off the names of one length after the other, as long as the number reaches beyond those
of the length `width`, of which there are `count`. What is left is the number of a name among those
of its length, beside the length. There is no answer if the arithmetic lacks a number on the way:
it has those that `fits` admits. -/
def countOff? (fits : Nat → Bool) (rest count width : Nat) (hcount : 0 < count) :
    Option (Nat × Nat) :=
  if rest < count then some (rest, width)
  else if fits (count * 62) && fits (width + 1) then
    countOff? fits (rest - count) (count * 62) (width + 1) (Nat.mul_pos hcount (by decide))
  else none
termination_by rest

/-- Writes the last `more` characters of a name in front of `tail`, from the last one on, and the
first one before them all. A digit that stands for no character has no answer. -/
def spell? : Nat → Nat → List Char → Option (List Char)
  | 0, rest, tail => do
    let first ← (nameChars.take 52)[rest]?
    return first :: tail
  | more + 1, rest, tail => do
    let c ← nameChars[rest % 62]?
    spell? more (rest / 62) (c :: tail)

/-- The short name with the given number, as a loop finds it. -/
def countedName? (fits : Nat → Bool) (index : Nat) : Option String := do
  let (rest, width) ← countOff? fits index 52 1 (by decide)
  let chars ← spell? (width - 1) rest []
  return String.ofList chars

/-- The number of the first name that has `more` characters behind its first one. -/
def firstNumber : Nat → Nat
  | 0 => 0
  | more + 1 => 52 + 62 * firstNumber more

theorem firstNumber_succ (more : Nat) :
    firstNumber (more + 1) = firstNumber more + 52 * 62 ^ more := by
  induction more with
  | zero => rfl
  | succ more ih =>
    have hnext : firstNumber (more + 1) = 52 + 62 * firstNumber more := rfl
    rw [firstNumber, Nat.pow_succ]
    omega

/-- The digits of what is left spell the name. -/
theorem spell?_eq {more rest : Nat} (h : rest < 52 * 62 ^ more) (tail : List Char) :
    spell? more rest tail = some (shortNameChars (firstNumber more + rest) ++ tail) := by
  induction more generalizing rest tail with
  | zero =>
    have hrest : rest < 52 := by simpa using h
    have hfirst : (nameChars.take 52)[rest]? = some (nameChar rest) := by
      rw [List.getElem?_take_of_lt hrest, getElem?_nameChars (by omega)]
    rw [spell?, hfirst, firstNumber, Nat.zero_add, shortNameChars, if_pos hrest]
    rfl
  | succ more ih =>
    have hdigit : rest % 62 < 62 := Nat.mod_lt _ (by decide)
    have hfront : rest / 62 < 52 * 62 ^ more := by
      rw [Nat.div_lt_iff_lt_mul (by decide), Nat.mul_assoc, ← Nat.pow_succ]
      exact h
    have hnumber : firstNumber (more + 1) + rest =
        52 + 62 * (firstNumber more + rest / 62) + rest % 62 := by
      rw [firstNumber]
      omega
    rw [spell?, getElem?_nameChars hdigit, hnumber, shortNameChars_append hdigit, List.append_assoc]
    exact ih hfront _

/-- Counting off goes on to the length of the name, if the arithmetic goes far enough. -/
theorem countOff?_eq {fits : Nat → Bool} {rest : Nat} (more : Nat) (hcount : 0 < 52 * 62 ^ more)
    (hfits : ∀ n ≤ 62 * rest, fits n = true) :
    ∃ rest' more', countOff? fits rest (52 * 62 ^ more) (more + 1) hcount =
      some (rest', more' + 1) ∧ rest' < 52 * 62 ^ more' ∧
        firstNumber more' + rest' = firstNumber more + rest := by
  induction rest using Nat.strongRecOn generalizing more with
  | ind rest ih =>
    rw [countOff?]
    by_cases hlt : rest < 52 * 62 ^ more
    · exact ⟨rest, more, if_pos hlt, hlt, rfl⟩
    · have hmore : more < 62 ^ more := Nat.lt_pow_self (by decide)
      have hproduct : fits (52 * 62 ^ more * 62) = true := hfits _ (by omega)
      have hwidth : fits (more + 1 + 1) = true := hfits _ (by omega)
      obtain ⟨rest', more', heq, hrest, hnumber⟩ := ih (rest - 52 * 62 ^ more) (by omega)
        (more + 1) (by positivity) fun n hn => hfits n (by omega)
      refine ⟨rest', more', ?_, hrest, ?_⟩
      · simp only [if_neg hlt, hproduct, hwidth, Bool.and_self, if_true]
        simpa only [Nat.pow_succ, Nat.mul_assoc] using heq
      · rw [hnumber, firstNumber_succ]
        omega

theorem countedName?_eq {fits : Nat → Bool} {index : Nat}
    (hfits : ∀ n ≤ 62 * index, fits n = true) :
    countedName? fits index = some (shortName index) := by
  obtain ⟨rest, more, heq, hrest, hnumber⟩ := countOff?_eq 0 (by decide) hfits
  have hcounted : countOff? fits index 52 1 (by decide) = some (rest, more + 1) := heq
  rw [firstNumber, Nat.zero_add] at hnumber
  rw [countedName?, hcounted]
  simp only [Option.bind_eq_bind, Option.bind_some, Nat.add_sub_cancel, spell?_eq hrest, hnumber,
    List.append_nil]
  rfl

/-- Each plain name is the short name with one number, and the numbers put the names in order. A
loop finds the same names, in an arithmetic without bounds for all numbers, and in one of 64 bits
for those up to `2 ^ 53`. -/
theorem shortName_enumerates :
    Set.BijOn shortName Set.univ {name | IsPlainName name.toList} ∧
    (∀ i j, i < j → PrecedesName (shortName i).toList (shortName j).toList) ∧
    (∀ index, countedName? (fun _ => true) index = some (shortName index)) ∧
    ∀ index ≤ 2 ^ 53, countedName? (· < 2 ^ 64) index = some (shortName index) := by
  have hchars : ∀ index, (shortName index).toList = shortNameChars index :=
    fun _ => String.toList_ofList
  refine ⟨⟨fun index _ => ?_, fun _ _ _ _ => shortName_injective, fun name hname => ?_⟩,
    fun i j hlt => ?_, fun index => countedName?_eq fun _ _ => rfl, fun index hindex => ?_⟩
  · change IsPlainName (shortName index).toList
    rw [hchars]
    exact isPlainName_shortNameChars index
  · obtain ⟨index, hindex⟩ := exists_shortNameChars hname
    exact ⟨index, Set.mem_univ _, String.toList_injective ((hchars index).trans hindex)⟩
  · rw [hchars, hchars]
    exact shortNameChars_precedes hlt
  · exact countedName?_eq fun n hn => decide_eq_true (by omega)

/-- The last name of two characters and the first one of three. -/
theorem shortName_enumerates_long : 3275 < 3276 ∧ PrecedesName "Z9".toList "aaa".toList ∧
    2 ^ 53 ≤ 2 ^ 53 ∧ countedName? (· < 2 ^ 64) (2 ^ 53) = some (shortName (2 ^ 53)) := by
  obtain ⟨-, hordered, -, hwords⟩ := shortName_enumerates
  have hlast : shortName 3275 = "Z9" := by simp +decide [shortName, shortNameChars]
  have hfirst : shortName 3276 = "aaa" := by simp +decide [shortName, shortNameChars]
  exact ⟨by decide, hlast ▸ hfirst ▸ hordered 3275 3276 (by decide), le_rfl, hwords _ le_rfl⟩

end EcmaPress

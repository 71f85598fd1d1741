import EcmaPress.Proofs.Codings
import Mathlib.Data.List.Forall2

/-!
# Well-formed UTF-8

A sequence of bytes stands for a number if its first byte tells how many bytes there are and the
others carry six bits each. It is the sequence of a character if the number is that of a character
and there is no shorter one. These are the sequences that are read and written: what is left out by
the ranges of the bytes that follow a lead byte are the longer forms, the surrogates and the numbers
beyond the last character.
-/

namespace EcmaPress
namespace Utf8

/-- Whether a byte goes on with a sequence: in binary it is `10xxxxxx`. -/
def IsTrail (byte : UInt8) : Prop :=
  byte.toNat / 64 = 2

/-- Whether some bytes stand for a number and no fewer bytes do. In binary the first byte is
`0xxxxxxx`, `110xxxxx`, `1110xxxx` or `11110xxx`. -/
inductive Spells : List UInt8 → Nat → Prop where
  | one {a : UInt8} {n : Nat} (ha : a.toNat / 128 = 0) (hn : n = a.toNat) : Spells [a] n
  | two {a b : UInt8} {n : Nat} (ha : a.toNat / 32 = 6) (hb : IsTrail b)
    (hn : n = a.toNat % 32 * 64 + b.toNat % 64) (hshort : 0x80 ≤ n) : Spells [a, b] n
  | three {a b c : UInt8} {n : Nat} (ha : a.toNat / 16 = 14) (hb : IsTrail b) (hc : IsTrail c)
    (hn : n = (a.toNat % 16 * 64 + b.toNat % 64) * 64 + c.toNat % 64) (hshort : 0x800 ≤ n) :
    Spells [a, b, c] n
  | four {a b c d : UInt8} {n : Nat} (ha : a.toNat / 8 = 30) (hb : IsTrail b) (hc : IsTrail c)
    (hd : IsTrail d)
    (hn : n = ((a.toNat % 8 * 64 + b.toNat % 64) * 64 + c.toNat % 64) * 64 + d.toNat % 64)
    (hshort : 0x10000 ≤ n) : Spells [a, b, c, d] n

/-- Whether bytes are the sequence of a character: a number up to U+10FFFF that is no surrogate. -/
def IsSequence (bytes : List UInt8) : Prop :=
  ∃ n, n.isValidChar ∧ Spells bytes n

/-- Whether bytes are well-formed: they are made up of sequences of characters. -/
def WellFormed (bytes : List UInt8) : Prop :=
  ∃ parts : List (List UInt8), parts.flatten = bytes ∧ ∀ part ∈ parts, IsSequence part

/-! ### Writing -/

theorem spells_encodeChar (c : Char) : Spells (String.utf8EncodeChar c) c.toNat := by
  have hvalid : c.toNat.isValidChar := c.valid
  have htoNat : c.val.toNat = c.toNat := rfl
  unfold String.utf8EncodeChar
  simp only [htoNat]
  generalize c.toNat = n at *
  split
  · exact .one (by simp; omega) (by simp; omega)
  · split
    · exact .two (by simp; omega) (by simp [IsTrail]; omega) (by simp; omega) (by omega)
    · split
      · exact .three (by simp; omega) (by simp [IsTrail]; omega) (by simp [IsTrail]; omega)
          (by simp; omega) (by omega)
      · exact .four (by simp; omega) (by simp [IsTrail]; omega) (by simp [IsTrail]; omega)
          (by simp [IsTrail]; omega) (by simp; omega) (by omega)

theorem ofNat_eq {n : Nat} {byte : UInt8} (h : n = byte.toNat) : UInt8.ofNat n = byte := by
  rw [h, UInt8.ofNat_toNat]

/-- A character is written with the bytes that stand for its number. -/
theorem encodeChar_of_spells {c : Char} {bytes : List UInt8} (h : Spells bytes c.toNat) :
    String.utf8EncodeChar c = bytes := by
  have htoNat : c.val.toNat = c.toNat := rfl
  unfold String.utf8EncodeChar
  simp only [htoNat]
  generalize c.toNat = n at *
  cases h with
  | one ha hn => rw [if_pos (by omega), ofNat_eq hn]
  | two ha hb hn hshort =>
    unfold IsTrail at hb
    rw [if_neg (by omega), if_pos (by omega)]
    simp only [List.cons.injEq, and_true]
    exact ⟨ofNat_eq (by omega), ofNat_eq (by omega)⟩
  | three ha hb hc hn hshort =>
    unfold IsTrail at hb hc
    rw [if_neg (by omega), if_neg (by omega), if_pos (by omega)]
    simp only [List.cons.injEq, and_true]
    exact ⟨ofNat_eq (by omega), ofNat_eq (by omega), ofNat_eq (by omega)⟩
  | four ha hb hc hd hn hshort =>
    unfold IsTrail at hb hc hd
    rw [if_neg (by omega), if_neg (by omega), if_neg (by omega)]
    simp only [List.cons.injEq, and_true]
    exact ⟨ofNat_eq (by omega), ofNat_eq (by omega), ofNat_eq (by omega), ofNat_eq (by omega)⟩

/-! ### Reading -/

/-- Whether a byte lies in a range. -/
def InRange (range : UInt8 × UInt8) (byte : UInt8) : Prop :=
  range.1 ≤ byte ∧ byte ≤ range.2

theorem matching_eq_length {ranges : List (UInt8 × UInt8)} {rest : List UInt8} :
    matching ranges rest = ranges.length ↔
      ∃ trail back, rest = trail ++ back ∧ List.Forall₂ InRange ranges trail := by
  induction ranges generalizing rest with
  | nil => exact iff_of_true rfl ⟨[], rest, rfl, .nil⟩
  | cons range ranges ih =>
    cases rest with
    | nil =>
      refine iff_of_false nofun ?_
      rintro ⟨trail, back, hrest, htrail⟩
      obtain ⟨rfl, -⟩ := List.append_eq_nil_iff.mp hrest.symm
      cases htrail
    | cons byte rest =>
      rw [matching, List.length_cons]
      constructor
      · intro h
        split at h
        · next hrange =>
          obtain ⟨trail, back, rfl, htrail⟩ := ih.mp (Nat.succ.inj h)
          exact ⟨byte :: trail, back, rfl, .cons hrange htrail⟩
        · cases h
      · rintro ⟨trail, back, hrest, htrail⟩
        obtain ⟨first, trail', hrange, htrail', rfl⟩ := List.forall₂_cons_left_iff.mp htrail
        rw [List.cons_append] at hrest
        obtain ⟨rfl, rfl⟩ := List.cons.inj hrest
        have hbounds : range.1 ≤ byte ∧ byte ≤ range.2 := hrange
        rw [if_pos hbounds, ih.mpr ⟨trail', back, rfl, htrail'⟩]

theorem isSequence_one {a : UInt8} : IsSequence [a] ↔ a.toNat < 0x80 := by
  constructor
  · rintro ⟨n, -, hspells⟩
    cases hspells with | one ha hn => omega
  · exact fun h => ⟨a.toNat, .inl (by omega), .one (by omega) rfl⟩

theorem isSequence_two {a b : UInt8} : IsSequence [a, b] ↔
    (0xC2 ≤ a.toNat ∧ a.toNat < 0xE0) ∧ 0x80 ≤ b.toNat ∧ b.toNat ≤ 0xBF := by
  constructor
  · rintro ⟨n, -, hspells⟩
    cases hspells with | two ha hb hn hshort =>
    unfold IsTrail at hb
    omega
  · rintro ⟨ha, hb⟩
    have hbtrail : IsTrail b := by unfold IsTrail; omega
    exact ⟨_, .inl (by omega), .two (by omega) hbtrail rfl (by omega)⟩

/-- Behind `E0` would stand a form that is too long, behind `ED` a surrogate. -/
theorem isSequence_three {a b c : UInt8} : IsSequence [a, b, c] ↔
    (0xE0 ≤ a.toNat ∧ a.toNat < 0xF0) ∧ (0x80 ≤ b.toNat ∧ b.toNat ≤ 0xBF) ∧
      (a.toNat = 0xE0 → 0xA0 ≤ b.toNat) ∧ (a.toNat = 0xED → b.toNat ≤ 0x9F) ∧
      0x80 ≤ c.toNat ∧ c.toNat ≤ 0xBF := by
  constructor
  · rintro ⟨n, hvalid, hspells⟩
    cases hspells with | three ha hb hc hn hshort =>
    unfold IsTrail at hb hc
    unfold Nat.isValidChar at hvalid
    omega
  · rintro ⟨ha, hb, hlow, hhigh, hc⟩
    have hbtrail : IsTrail b := by unfold IsTrail; omega
    have hctrail : IsTrail c := by unfold IsTrail; omega
    refine ⟨_, ?_, .three (by omega) hbtrail hctrail rfl (by omega)⟩
    unfold Nat.isValidChar
    omega

/-- Behind `F0` would stand a form that is too long, behind `F4` no character any more. -/
theorem isSequence_four {a b c d : UInt8} : IsSequence [a, b, c, d] ↔
    (0xF0 ≤ a.toNat ∧ a.toNat ≤ 0xF4) ∧ (0x80 ≤ b.toNat ∧ b.toNat ≤ 0xBF) ∧
      (a.toNat = 0xF0 → 0x90 ≤ b.toNat) ∧ (a.toNat = 0xF4 → b.toNat ≤ 0x8F) ∧
      (0x80 ≤ c.toNat ∧ c.toNat ≤ 0xBF) ∧ 0x80 ≤ d.toNat ∧ d.toNat ≤ 0xBF := by
  constructor
  · rintro ⟨n, hvalid, hspells⟩
    cases hspells with | four ha hb hc hd hn hshort =>
    unfold IsTrail at hb hc hd
    unfold Nat.isValidChar at hvalid
    omega
  · rintro ⟨ha, hb, hlow, hhigh, hc, hd⟩
    have hbtrail : IsTrail b := by unfold IsTrail; omega
    have hctrail : IsTrail c := by unfold IsTrail; omega
    have hdtrail : IsTrail d := by unfold IsTrail; omega
    refine ⟨_, ?_, .four (by omega) hbtrail hctrail hdtrail rfl (by omega)⟩
    unfold Nat.isValidChar
    omega

/-- The bytes that may follow a lead byte are those of the sequences of characters. -/
theorem followers_iff_isSequence {lead : UInt8} {trail : List UInt8} :
    (∃ ranges, followers lead = some ranges ∧ List.Forall₂ InRange ranges trail) ↔
      IsSequence (lead :: trail) := by
  simp only [followers, UInt8.lt_iff_toNat_lt, ← UInt8.toNat_inj, UInt8.toNat_ofNat, Nat.reducePow,
    Nat.reduceMod]
  constructor
  · rintro ⟨ranges, hfollowers, htrail⟩
    repeat' split at hfollowers
    all_goals
      simp only [reduceCtorEq, Option.some.injEq] at hfollowers
    all_goals
      subst hfollowers
      simp only [List.forall₂_cons_left_iff, List.forall₂_nil_left_iff, InRange,
        UInt8.le_iff_toNat_le, UInt8.toNat_ofNat, Nat.reducePow, Nat.reduceMod] at htrail
    -- One range of lead bytes for one byte and for two, three ranges for three bytes and for four.
    · subst htrail
      exact isSequence_one.mpr (by omega)
    · obtain ⟨b, _, hb, rfl, rfl⟩ := htrail
      exact isSequence_two.mpr (by omega)
    iterate 3
      · obtain ⟨b, _, hb, ⟨c, _, hc, rfl, rfl⟩, rfl⟩ := htrail
        exact isSequence_three.mpr (by omega)
    iterate 3
      · obtain ⟨b, _, hb, ⟨c, _, hc, ⟨d, _, hd, rfl, rfl⟩, rfl⟩, rfl⟩ := htrail
        exact isSequence_four.mpr (by omega)
  · intro hsequence
    have htrail : ∀ {ranges : List (UInt8 × UInt8)}, List.Forall₂ (fun range byte =>
        range.1.toNat ≤ byte.toNat ∧ byte.toNat ≤ range.2.toNat) ranges trail →
        List.Forall₂ InRange ranges trail := fun h => h.imp fun _ _ h =>
          ⟨UInt8.le_iff_toNat_le.mpr h.1, UInt8.le_iff_toNat_le.mpr h.2⟩
    obtain ⟨n, -, hspells⟩ := id hsequence
    cases hspells with
    | one => exact ⟨[], if_pos (isSequence_one.mp hsequence), .nil⟩
    | two =>
      have h := isSequence_two.mp hsequence
      refine ⟨_, by rw [if_neg (by omega), if_neg (by omega), if_pos (by omega)], htrail ?_⟩
      exact .cons h.2 .nil
    | three =>
      obtain ⟨ha, hb, hlow, hhigh, hc⟩ := isSequence_three.mp hsequence
      rw [if_neg (by omega), if_neg (by omega), if_neg (by omega)]
      split
      · exact ⟨_, rfl, htrail (.cons ⟨hlow ‹_›, hb.2⟩ (.cons hc .nil))⟩
      · split
        · exact ⟨_, rfl, htrail (.cons ⟨hb.1, hhigh ‹_›⟩ (.cons hc .nil))⟩
        · rw [if_pos (by omega)]
          exact ⟨_, rfl, htrail (.cons hb (.cons hc .nil))⟩
    | four =>
      obtain ⟨ha, hb, hlow, hhigh, hc, hd⟩ := isSequence_four.mp hsequence
      rw [if_neg (by omega), if_neg (by omega), if_neg (by omega), if_neg (by omega), if_neg (by omega),
        if_neg (by omega)]
      split
      · exact ⟨_, rfl, htrail (.cons ⟨hlow ‹_›, hb.2⟩ (.cons hc (.cons hd .nil)))⟩
      · split
        · exact ⟨_, rfl, htrail (.cons hb (.cons hc (.cons hd .nil)))⟩
        · rw [if_pos (by omega)]
          exact ⟨_, rfl, htrail (.cons ⟨hb.1, hhigh (by omega)⟩ (.cons hc (.cons hd .nil)))⟩

/-- The number of a sequence is put together from its bits. -/
theorem assemble_of_spells {lead : UInt8} {trail : List UInt8} {c : Char}
    (h : Spells (lead :: trail) c.toNat) : assemble lead trail = c := by
  have hnumber : trail.foldl (fun n byte => n * 64 + byte.toNat % 64) (leadBits lead) = c.toNat := by
    simp only [leadBits, UInt8.lt_iff_toNat_lt, UInt8.toNat_ofNat, Nat.reducePow, Nat.reduceMod]
    generalize c.toNat = n at h
    cases h with
    | one ha hn => rw [if_pos (by omega), List.foldl_nil, hn]
    | two ha hb hn hshort =>
      rw [if_neg (by omega), if_pos (by omega), hn]
      rfl
    | three ha hb hc hn hshort =>
      rw [if_neg (by omega), if_neg (by omega), if_pos (by omega), hn]
      rfl
    | four ha hb hc hd hn hshort =>
      rw [if_neg (by omega), if_neg (by omega), if_neg (by omega), hn]
      rfl
  rw [assemble, hnumber, Char.ofNat_toNat]

/-! ### Reading and writing -/

/-- The bytes of a character are those of a sequence. -/
theorem isSequence_iff {bytes : List UInt8} :
    IsSequence bytes ↔ ∃ c, String.utf8EncodeChar c = bytes := by
  constructor
  · rintro ⟨n, hvalid, hspells⟩
    refine ⟨Char.ofNat n, encodeChar_of_spells ?_⟩
    rwa [Charset.toNat_ofNat_of_isValidChar hvalid]
  · rintro ⟨c, rfl⟩
    exact ⟨c.toNat, c.valid, spells_encodeChar c⟩

theorem exists_cons_of_isSequence {bytes : List UInt8} (h : IsSequence bytes) :
    ∃ lead trail, bytes = lead :: trail := by
  obtain ⟨n, -, hspells⟩ := h
  cases hspells <;> exact ⟨_, _, rfl⟩

/-- What is read is a sequence of a character, and the whole of one that stands there is read. -/
theorem read_eq_char {lead : UInt8} {rest : List UInt8} {c : Char} {more : Nat} :
    read lead rest = .char c more ↔ ∃ trail back, rest = trail ++ back ∧ more = trail.length ∧
      String.utf8EncodeChar c = lead :: trail := by
  constructor
  · intro h
    unfold read at h
    split at h
    · cases h
    · next ranges hfollowers =>
      dsimp only at h
      split at h
      · next hmatching =>
        obtain ⟨trail, back, rfl, htrail⟩ := matching_eq_length.mp hmatching
        obtain ⟨c, hc⟩ := isSequence_iff.mp (followers_iff_isSequence.mp ⟨ranges, hfollowers, htrail⟩)
        have hspells : Spells (lead :: trail) c.toNat := hc ▸ spells_encodeChar c
        obtain ⟨rfl, rfl⟩ := Reading.char.inj h
        rw [hmatching, htrail.length_eq, List.take_left, assemble_of_spells hspells]
        exact ⟨trail, back, rfl, rfl, hc⟩
      · split at h <;> cases h
  · rintro ⟨trail, back, rfl, rfl, hc⟩
    obtain ⟨ranges, hfollowers, htrail⟩ := followers_iff_isSequence.mpr (isSequence_iff.mpr ⟨c, hc⟩)
    have hmatching := matching_eq_length.mpr ⟨trail, back, rfl, htrail⟩
    have hspells : Spells (lead :: trail) c.toNat := hc ▸ spells_encodeChar c
    simp only [read, hfollowers, hmatching, if_true, htrail.length_eq, List.take_left,
      assemble_of_spells hspells]

theorem inverse : Inverse read fun c => some (String.utf8EncodeChar c) where
  reads {c bytes} h := by
    obtain rfl := Option.some.inj h
    obtain ⟨lead, trail, hc⟩ := exists_cons_of_isSequence (isSequence_iff.mpr ⟨c, rfl⟩)
    exact ⟨lead, trail, hc, fun rest => read_eq_char.mpr ⟨trail, rest, rfl, rfl, hc⟩⟩
  writes {lead rest c more} h := by
    obtain ⟨trail, back, rfl, rfl, hc⟩ := read_eq_char.mp h
    rw [List.take_left, hc]

theorem exists_bytesOf?_iff {bytes : List UInt8} :
    (∃ text, bytesOf? (fun c => some (String.utf8EncodeChar c)) text = some bytes) ↔
      WellFormed bytes := by
  simp only [exists_bytesOf?, WellFormed, isSequence_iff, Option.some.injEq]

end Utf8
end EcmaPress

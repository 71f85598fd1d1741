import EcmaPress.Proofs.Tiling

/-!
# What touches a token

A token that has been read from a text parts from the text behind it, if another token follows
there, with or without a gap between them. For this it only matters which character stands behind
the token.
-/

namespace EcmaPress
namespace Lexeme

/-! ### Where lexemes end -/

theorem ends_name {text : List Char} {n : Nat} (h : name text = .ok n) :
    Ends Page.isWordChar (text.drop n) := by
  fun_induction name text generalizing n with
  | case1 a b c d text hex ih =>
    obtain ⟨k, hk, rfl⟩ := shift_eq_ok h
    exact ih hk
  | case2 => cases h
  | case3 => cases h
  | case4 c text hesc hback hc ih =>
    obtain ⟨k, hk, rfl⟩ := shift_eq_ok h
    exact ih hk
  | case5 c text hesc hback hc =>
    obtain rfl : 0 = n := by simpa using h
    simpa [Page.isWordChar, hc] using hback
  | case6 =>
    obtain rfl : 0 = n := by simpa using h
    exact ends_nil _

theorem ends_run (p : Char → Bool) (text : List Char) : Ends p (text.drop (run p text)) := by
  intro c hc
  have hhead := head_drop_run p text
  rw [Option.mem_def.mp hc] at hhead
  simpa using hhead

theorem ends_regex {text : List Char} {n : Nat} (h : regex text = some n) :
    Ends isIdPart (text.drop n) := by
  obtain ⟨k, -, rfl⟩ := Option.map_eq_some_iff.mp h
  rw [← List.drop_drop]
  exact ends_run isIdPart _

/-- Neither a word nor a digit touches a number. -/
theorem ends_number {text : List Char} {n : Nat} (h : number text = .ok n) :
    Ends (fun c => isIdStart c || c.isDigit || c == '\\') (text.drop n) := by
  have hnumeral := numeral_of_number h
  simp only [number, hnumeral] at h
  split at h
  · next c rest hdrop =>
    rw [hdrop, ends_cons]
    split at h
    · cases h
    · next hc => simpa using hc
  · next hdrop =>
    rw [hdrop]
    exact ends_nil _

/-- No point touches a number of digits only: it would belong to the number. -/
theorem ends_digits {text : List Char} {n : Nat} (h : number text = .ok n)
    (hdigits : (text.take n).all Char.isDigit = true) : Ends (· == '.') (text.drop n) := by
  have hnumeral := numeral_of_number h
  have hlen := numeral_le hnumeral
  intro c hc
  rw [beq_eq_false_iff_ne]
  rintro rfl
  obtain ⟨rest, hrest⟩ := List.head?_eq_some_iff.mp hc
  have hsplit : text = text.take n ++ '.' :: rest := by rw [← hrest, List.take_append_drop]
  have hrun : run Char.isDigit text = n := by
    rw [hsplit, run_append hdigits (ends_cons.mpr (by decide)), List.length_take,
      Nat.min_eq_left hlen]
  have hhex : ∀ x inner, text = '0' :: x :: inner → ¬ (x = 'x' ∨ x = 'X') := by
    rintro x inner rfl hx
    have hshort : n = 1 := by
      rcases hx with rfl | rfl <;> exact hrun.symm
    rw [hshort, List.drop_succ_cons, List.drop_zero] at hrest
    obtain ⟨rfl, -⟩ := List.cons.inj hrest
    exact absurd hx (by decide)
  rw [numeral_eq_decimal hhex] at hnumeral
  have hge := decimal_ge hnumeral
  rw [hrun, hrest, fraction] at hge
  omega

/-- The sign that is read is the longest one that fits. -/
theorem punct_longest {text : List Char} {n : Nat} (h : punct text = some n) {longer : String}
    (hmem : longer ∈ punctuators) (hfits : longer.toList <+: text) : longer.toList.length ≤ n := by
  obtain ⟨sign, hsign, rfl⟩ := Option.map_eq_some_iff.mp h
  obtain ⟨-, before, behind, hsplit, hbefore⟩ := List.find?_eq_some_iff_append.mp hsign
  rw [hsplit, List.mem_append, List.mem_cons] at hmem
  rcases hmem with hmem | rfl | hmem
  · exact absurd (hbefore longer hmem) (by simpa using hfits)
  · exact Nat.le_refl _
  · have hpairs := punctuators_pairwise
    rw [hsplit, List.pairwise_append, List.pairwise_cons] at hpairs
    exact hpairs.2.1.1 longer hmem

/-! ### What may follow -/

theorem isWordChar_of_blank {c : Char} (h : (isLineTerminator c || isBlank c) = true) :
    Page.isWordChar c = false := by
  have hspaces : ∀ n < 11, Page.isWordChar (Char.ofNat (0x2000 + n)) = false := by
    decide +kernel
  have hothers : (['\n', '\r', '\u2028', '\u2029', ' ', '\t', '\x0b', '\x0c', '\u0085', '\u00a0',
      '\u1680', '\u202f', '\u205f', '\u3000', '\ufeff'].all fun c => !Page.isWordChar c) = true := by
    decide +kernel
  by_cases hrange : '\u2000' ≤ c ∧ c ≤ '\u200a'
  · obtain ⟨hlow, hhigh⟩ := hrange
    have hlow' : 0x2000 ≤ c.toNat := hlow
    have hhigh' : c.toNat ≤ 0x200a := hhigh
    have hc := hspaces (c.toNat - 0x2000) (by omega)
    rwa [Nat.add_sub_cancel' hlow', Char.ofNat_toNat] at hc
  · rw [← Bool.not_eq_true']
    refine List.all_eq_true.mp hothers c ?_
    simp only [isLineTerminator, isBlank, hrange, Bool.or_eq_true, beq_iff_eq, Bool.and_eq_true,
      decide_eq_true_eq, or_false] at h
    simp only [List.mem_cons, List.not_mem_nil, or_false]
    grind

/-- A character behind a number belongs to no word, if a gap or another token begins there. -/
theorem ends_word_of_number {text : List Char}
    (h : Ends (fun c => isIdStart c || c.isDigit || c == '\\') text) {k : Nat}
    (hgap : gap text = .ok k) {next : TokenKind × Nat} (hnext : scan (text.drop k) = .ok next) :
    Ends Page.isWordChar text := by
  cases text with
  | nil => exact ends_nil _
  | cons c rest =>
    rw [ends_cons, Bool.or_eq_false_iff, Bool.or_eq_false_iff] at h
    obtain ⟨⟨hstart, hdigit⟩, hback⟩ := h
    rw [ends_cons]
    by_cases hblank : (isLineTerminator c || isBlank c) = true
    · exact isWordChar_of_blank hblank
    by_cases hslash : c = '/'
    · subst hslash
      decide
    -- There is no gap, so the character begins a token: a point, a string or a sign.
    obtain rfl : 0 = k := by
      have hnone : gap (c :: rest) = .ok 0 :=
        gap_eq_zero.mpr ⟨Bool.eq_false_iff.mpr hblank, fun hc => absurd hc hslash⟩
      exact Except.ok.inj (hnone.symm.trans hgap)
    obtain ⟨kind, m⟩ := next
    cases scan_eq_ok.mp hnext with
    | name hword => simp [hstart, hback] at hword
    | number _ hnumber =>
      simp only [hdigit, Bool.false_or, Bool.and_eq_true, beq_iff_eq] at hnumber
      rw [hnumber.1]
      decide
    | string _ _ hquote =>
      simp only [Bool.or_eq_true, beq_iff_eq] at hquote
      rcases hquote with rfl | rfl <;> decide
    | punct _ _ _ hsign =>
      obtain ⟨sign, hmem, hfits, -⟩ := punct_eq_some hsign
      have hfirst : ∀ sign ∈ punctuators,
          (sign.toList.head?.any fun d => !Page.isWordChar d) = true := by
        decide
      obtain ⟨d, hhead, hd⟩ := (Option.any_eq_true ..).mp (hfirst sign hmem)
      obtain ⟨more, hcons⟩ := List.head?_eq_some_iff.mp hhead
      rw [hcons] at hfits
      exact (List.cons_prefix_cons.mp hfits).1 ▸ (Bool.not_eq_true' _).mp hd

/-- A token parts from the text behind it, if another token follows there. -/
theorem parts_of_scan {text : List Char} {kind : TokenKind} {n k : Nat} {next : TokenKind × Nat}
    (h : scan text = .ok (kind, n)) (hnone : gap text = .ok 0)
    (hgap : gap (text.drop n) = .ok k) (hnext : scan ((text.drop n).drop k) = .ok next) :
    Parts kind (text.take n) (text.drop n) := by
  cases scan_eq_ok.mp h with
  | endOfText => rfl
  | name _ hname => exact ends_name hname
  | number _ _ hnumber =>
    exact ⟨ends_word_of_number (ends_number hnumber) hgap hnext, ends_digits hnumber⟩
  | string => trivial
  | @punct c rest n _ hdigit _ hsign =>
    have hle : n ≤ (c :: rest).length := punct_le hsign
    have hlen : ((c :: rest).take n).length = n := by rw [List.length_take, Nat.min_eq_left hle]
    refine ⟨fun longer hmem hfits => ?_, fun hpoint => ?_, fun hslash => ?_⟩
    · rw [List.take_append_drop] at hfits
      exact hlen.symm ▸ punct_longest hsign hmem hfits
    · obtain rfl : n = 1 := by rw [← hlen, hpoint]; rfl
      obtain ⟨rfl, -⟩ := List.cons.inj hpoint
      intro d hd
      simp only [List.drop_succ_cons, List.drop_zero] at hd
      simpa [Option.mem_def.mp hd] using hdigit
    · obtain rfl : n = 1 := by rw [← hlen, hslash]; rfl
      obtain ⟨rfl, -⟩ := List.cons.inj hslash
      exact (gap_eq_zero.mp hnone).2 rfl

/-- Every front part of a sign that has a character is a sign. -/
theorem punctuators_take {longer : String} (hmem : longer ∈ punctuators) {n : Nat} (hpos : 0 < n) :
    ∃ sign ∈ punctuators, sign.toList = longer.toList.take n := by
  have hall : ∀ longer ∈ punctuators, ∀ n < 4, 0 < n →
      ∃ sign ∈ punctuators, sign.toList = longer.toList.take n := by
    decide +kernel
  have hlen : longer.toList.length ≤ 4 :=
    (by decide : ∀ sign ∈ punctuators, sign.toList.length ≤ 4) longer hmem
  by_cases hn : n < 4
  · exact hall longer hmem n hn hpos
  · exact ⟨longer, hmem, (List.take_of_length_le (by omega)).symm⟩

/-- Where a sign fits that is longer than a token, a sign fits that is longer by one character. For
this one it only matters which character stands behind the token. -/
theorem exists_next_sign {longer : String} {token rest rest' : List Char}
    (hmem : longer ∈ punctuators) (hfits : longer.toList <+: token ++ rest')
    (hlong : token.length < longer.toList.length) (hhead : rest'.head? = rest.head?) :
    ∃ sign ∈ punctuators, sign.toList <+: token ++ rest ∧
      sign.toList.length = token.length + 1 := by
  obtain ⟨sign, hsign, htake⟩ := punctuators_take hmem (Nat.succ_pos token.length)
  obtain ⟨c, behind, rfl⟩ : ∃ c behind, rest' = c :: behind := by
    refine List.exists_cons_of_ne_nil fun hnil => ?_
    rw [hnil, List.append_nil] at hfits
    exact absurd hfits.length_le (Nat.not_le.mpr hlong)
  obtain ⟨behind', rfl⟩ := List.head?_eq_some_iff.mp hhead.symm
  have hcut : longer.toList.take (token.length + 1) = token ++ [c] := by
    have hfront := List.prefix_iff_eq_take.mp
      ((List.take_prefix (token.length + 1) longer.toList).trans hfits)
    rw [hfront, List.length_take, Nat.min_eq_left (by omega)]
    simp [List.take_append, List.take_of_length_le]
  rw [hcut] at htake
  refine ⟨sign, hsign, ?_, ?_⟩
  · rw [htake]
    exact ⟨behind', by simp⟩
  · rw [htake, List.length_append]
    rfl

/-- It only matters which character stands behind a token. -/
theorem Parts.congr {kind : TokenKind} {token rest rest' : List Char} (h : Parts kind token rest)
    (hhead : rest'.head? = rest.head?) : Parts kind token rest' := by
  have hends {p : Char → Bool} (hrest : Ends p rest) : Ends p rest' := by
    unfold Ends
    rwa [hhead]
  cases kind with
  | name => exact hends h
  | number => exact ⟨hends h.1, fun hdigits => hends (h.2 hdigits)⟩
  | string => trivial
  | punct =>
    refine ⟨fun longer hmem hfits => ?_, fun hpoint => hends (h.2.1 hpoint),
      fun hslash => hends (h.2.2 hslash)⟩
    rw [← Nat.not_lt]
    intro hlong
    obtain ⟨sign, hsign, hfits', hlen⟩ := exists_next_sign hmem hfits hlong hhead
    have hle := h.1 sign hsign hfits'
    omega
  | regex => exact hends h
  | endOfText =>
    obtain rfl : rest = [] := h
    exact List.head?_eq_none_iff.mp hhead

end Lexeme
end EcmaPress

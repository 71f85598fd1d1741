import EcmaPress.Token.Lexeme

/-!
# The extent of lexemes

No lexeme reaches beyond the end of its text, and behind a gap there is no further gap. These are
the facts that let a cursor carry the knowledge of where its token came from.
-/

namespace EcmaPress
namespace Lexeme

theorem shift_eq_ok {n m : Nat} {r : Except Nat Nat} (h : shift n r = .ok m) :
    ∃ k, r = .ok k ∧ m = k + n := by
  cases r with
  | error e => simp [shift] at h
  | ok k => exact ⟨k, rfl, by simpa [shift] using h.symm⟩

theorem run_le (p : Char → Bool) (text : List Char) : run p text ≤ text.length := by
  induction text with
  | nil => simp [run]
  | cons c rest ih =>
    simp only [run, List.length_cons]
    split <;> omega

theorem blockComment_le {text : List Char} {n : Nat} (h : blockComment text = some n) :
    n ≤ text.length := by
  fun_induction blockComment text generalizing n with
  | case1 => simp at h
  | case2 => simp at h; simp [← h]
  | case3 c rest _ ih =>
    obtain ⟨k, hk, rfl⟩ := Option.map_eq_some_iff.mp h
    have := ih hk
    simp only [List.length_cons]
    omega

/-- Behind a gap no further gap stands. -/
theorem gap_drop {text : List Char} {n : Nat} (h : gap text = .ok n) :
    n ≤ text.length ∧ gap (text.drop n) = .ok 0 := by
  fun_induction gap text generalizing n with
  | case1 => simp at h; subst h; simp [gap]
  | case2 c rest hc ih =>
    obtain ⟨k, hk, rfl⟩ := shift_eq_ok h
    simpa using ih hk
  | case3 line len =>
    rename_i ih
    obtain ⟨k, hk, rfl⟩ := shift_eq_ok h
    obtain ⟨hle, hd⟩ := ih hk
    have hn := run_le (fun d => !isLineTerminator d) line
    simp only [List.length_drop] at hle
    refine ⟨by simp only [List.length_cons]; omega, ?_⟩
    rw [← Nat.add_assoc, List.drop_succ_cons, List.drop_succ_cons, Nat.add_comm]
    simpa using hd
  | case4 => simp at h
  | case5 inside n₀ hn _ ih =>
    obtain ⟨k, hk, rfl⟩ := shift_eq_ok h
    obtain ⟨hle, hd⟩ := ih hk
    have := blockComment_le hn
    simp only [List.length_drop] at hle
    refine ⟨by simp only [List.length_cons]; omega, ?_⟩
    rw [← Nat.add_assoc, List.drop_succ_cons, List.drop_succ_cons, Nat.add_comm]
    simpa using hd
  | case6 rest hline hblock hc =>
    obtain rfl : 0 = n := by simpa using h
    refine ⟨Nat.zero_le _, ?_⟩
    rw [List.drop_zero, gap.eq_def]
    split
    · rfl
    · next heq =>
      obtain ⟨rfl, rfl⟩ := List.cons.inj heq
      rw [if_neg hc, if_pos rfl]
      split
      · exact absurd rfl (hline _)
      · exact absurd rfl (hblock _)
      · rfl
  | case7 c rest hc hslash =>
    obtain rfl : 0 = n := by simpa using h
    refine ⟨Nat.zero_le _, ?_⟩
    rw [List.drop_zero, gap.eq_def]
    simp only [if_neg hc, if_neg hslash]

theorem name_le {text : List Char} {n : Nat} (h : name text = .ok n) : n ≤ text.length := by
  fun_induction name text generalizing n with
  | case1 a b c d rest _ ih =>
    obtain ⟨k, hk, rfl⟩ := shift_eq_ok h
    have := ih hk
    simp only [List.length_cons]
    omega
  | case2 => simp at h
  | case3 => simp at h
  | case4 c rest _ _ _ ih =>
    obtain ⟨k, hk, rfl⟩ := shift_eq_ok h
    have := ih hk
    simp only [List.length_cons]
    omega
  | case5 => simp at h; omega
  | case6 => simp at h; omega

theorem fraction_le (text : List Char) : fraction text ≤ text.length := by
  unfold fraction
  split
  · next rest => have := run_le Char.isDigit rest; simp only [List.length_cons]; omega
  · exact Nat.zero_le _

theorem exponent_le {text : List Char} {n : Nat} (h : exponent text = some n) :
    n ≤ text.length := by
  unfold exponent at h
  split at h
  · next e rest =>
    split at h
    · split at h
      · simp at h
      · next digits hd =>
        have := run_le Char.isDigit (rest.drop (exponentSign rest))
        simp only [List.length_drop] at this
        simp only [Option.some.injEq] at h
        simp only [List.length_cons]
        omega
    · simp at h; omega
  · simp at h; omega

theorem decimal_le {text : List Char} {n : Nat} (h : decimal text = .ok n) :
    n ≤ text.length := by
  unfold decimal at h
  dsimp only at h
  split at h
  · simp at h
  · next k hk =>
    have hw := run_le Char.isDigit text
    have hf := fraction_le (text.drop (run Char.isDigit text))
    have he := exponent_le hk
    simp only [List.length_drop] at hf he
    simp only [Except.ok.injEq] at h
    omega

theorem numeral_le {text : List Char} {n : Nat} (h : numeral text = .ok n) :
    n ≤ text.length := by
  unfold numeral at h
  split at h
  · next x rest =>
    split at h
    · split at h
      · simp at h
      · next digits hd =>
        have := run_le isHexDigit rest
        simp only [Except.ok.injEq] at h
        simp only [List.length_cons]
        omega
    · exact decimal_le h
  · exact decimal_le h

theorem number_le {text : List Char} {n : Nat} (h : number text = .ok n) :
    n ≤ text.length := by
  unfold number at h
  split at h
  · simp at h
  · next k hk =>
    have := numeral_le hk
    split at h
    · split at h
      · simp at h
      · simp only [Except.ok.injEq] at h; omega
    · simp only [Except.ok.injEq] at h; omega

theorem string_le {quote : Char} {text : List Char} {n : Nat} (h : string quote text = some n) :
    n ≤ text.length := by
  fun_induction string quote text generalizing n with
  | case1 => simp at h
  | case2 rest ih =>
    obtain ⟨k, hk, rfl⟩ := Option.map_eq_some_iff.mp h
    have := ih hk
    simp only [List.length_cons]
    omega
  | case3 c rest _ ih =>
    obtain ⟨k, hk, rfl⟩ := Option.map_eq_some_iff.mp h
    have := ih hk
    simp only [List.length_cons]
    omega
  | case4 => simp at h
  | case5 => simp at h; simp [← h]
  | case6 c rest _ _ _ _ ih =>
    obtain ⟨k, hk, rfl⟩ := Option.map_eq_some_iff.mp h
    have := ih hk
    simp only [List.length_cons]
    omega

theorem regexBody_le {inClass : Bool} {text : List Char} {n : Nat}
    (h : regexBody inClass text = some n) : n ≤ text.length := by
  fun_induction regexBody inClass text generalizing n with
  | case1 => simp at h
  | case2 => simp at h
  | case3 _ c rest _ ih =>
    obtain ⟨k, hk, rfl⟩ := Option.map_eq_some_iff.mp h
    have := ih hk
    simp only [List.length_cons]
    omega
  | case4 => simp at h
  | case5 => simp at h; simp [← h]
  | case6 _ c rest _ _ _ ih =>
    obtain ⟨k, hk, rfl⟩ := Option.map_eq_some_iff.mp h
    have := ih hk
    simp only [List.length_cons]
    omega

theorem regex_le {text : List Char} {n : Nat} (h : regex text = some n) : n ≤ text.length := by
  obtain ⟨k, hk, rfl⟩ := Option.map_eq_some_iff.mp h
  have hb := regexBody_le hk
  have hr := run_le isIdPart (text.drop (k + 1))
  simp only [List.length_drop] at hb hr
  cases text with
  | nil => simp [regexBody] at hk
  | cons c rest => simp only [List.length_cons] at *; omega

theorem punct_eq_some {text : List Char} {n : Nat} (h : punct text = some n) :
    ∃ sign ∈ punctuators, sign.toList <+: text ∧ n = sign.toList.length := by
  obtain ⟨sign, hs, rfl⟩ := Option.map_eq_some_iff.mp h
  refine ⟨sign, List.mem_of_find?_eq_some hs, ?_, rfl⟩
  simpa using List.find?_some hs

/-- What a text begins with: its end, or a token of some kind and length. What comes first in this
list is what the text begins with. -/
inductive Begins : List Char → TokenKind → Nat → Prop
  | endOfText : Begins [] .endOfText 0
  | name {c : Char} {rest : List Char} {n : Nat} : (isIdStart c || c == '\\') = true →
      name (c :: rest) = .ok n → Begins (c :: rest) .name n
  | number {c : Char} {rest : List Char} {n : Nat} : (isIdStart c || c == '\\') = false →
      (c.isDigit || (c == '.' && rest.head?.any Char.isDigit)) = true →
      number (c :: rest) = .ok n → Begins (c :: rest) .number n
  | string {c : Char} {rest : List Char} {n : Nat} : (isIdStart c || c == '\\') = false →
      (c.isDigit || (c == '.' && rest.head?.any Char.isDigit)) = false →
      (c == '"' || c == '\'') = true → string c rest = some n → Begins (c :: rest) .string (n + 1)
  | punct {c : Char} {rest : List Char} {n : Nat} : (isIdStart c || c == '\\') = false →
      (c.isDigit || (c == '.' && rest.head?.any Char.isDigit)) = false →
      (c == '"' || c == '\'') = false → punct (c :: rest) = some n → Begins (c :: rest) .punct n

theorem scan_eq_ok {text : List Char} {kind : TokenKind} {n : Nat} :
    scan text = .ok (kind, n) ↔ Begins text kind n := by
  constructor
  · intro h
    cases text with
    | nil =>
      cases h
      exact .endOfText
    | cons c rest =>
      rw [scan] at h
      split at h
      · next hword =>
        split at h
        · cases h
        · next hname =>
          cases h
          exact .name hword hname
      · next hword =>
        rw [Bool.not_eq_true] at hword
        split at h
        · next hdigit =>
          split at h
          · cases h
          · next hnumber =>
            cases h
            exact .number hword hdigit hnumber
        · next hdigit =>
          rw [Bool.not_eq_true] at hdigit
          split at h
          · next hquote =>
            split at h
            · cases h
            · next hstring =>
              cases h
              exact .string hword hdigit hquote hstring
          · next hquote =>
            rw [Bool.not_eq_true] at hquote
            split at h
            · cases h
            · next hsign =>
              cases h
              exact .punct hword hdigit hquote hsign
  · intro h
    cases h with
    | endOfText => rfl
    | name hword hname => rw [scan, if_pos hword, hname]
    | number hword hdigit hnumber =>
      simp only [scan, hword, hdigit, hnumber, Bool.false_eq_true, if_false, if_true]
    | string hword hdigit hquote hstring =>
      simp only [scan, hword, hdigit, hquote, hstring, Bool.false_eq_true, if_false, if_true]
    | punct hword hdigit hquote hsign =>
      simp only [scan, hword, hdigit, hquote, hsign, Bool.false_eq_true, if_false]

theorem scan_le {text : List Char} {kind : TokenKind} {n : Nat}
    (h : scan text = .ok (kind, n)) : n ≤ text.length := by
  cases scan_eq_ok.mp h with
  | endOfText => exact Nat.le_refl _
  | name _ hname => exact name_le hname
  | number _ _ hnumber => exact number_le hnumber
  | string _ _ _ hstring => exact Nat.succ_le_succ (string_le hstring)
  | punct _ _ _ hsign =>
    obtain ⟨sign, -, hfits, rfl⟩ := punct_eq_some hsign
    exact hfits.length_le

end Lexeme
end EcmaPress

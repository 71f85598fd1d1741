import EcmaPress.Layout.Page
import EcmaPress.Token.Extent

/-!
# Lexemes in other surroundings

Where a lexeme ends depends on what follows it. Here its own characters are put in front of
another text: it is read from there unchanged as long as the other text does not begin with a
character that would be drawn into it. With nothing behind the lexeme this says that the spelling
of a token tells its kind.
-/

namespace EcmaPress
namespace Lexeme

/-- A text that does not begin with a character of the given kind. -/
def Ends (p : Char → Bool) (text : List Char) : Prop :=
  ∀ c ∈ text.head?, p c = false

@[simp] theorem ends_nil (p : Char → Bool) : Ends p [] := by
  simp [Ends]

@[simp] theorem ends_cons {p : Char → Bool} {c : Char} {text : List Char} :
    Ends p (c :: text) ↔ p c = false := by
  simp [Ends]

theorem Ends.mono {p q : Char → Bool} {text : List Char} (h : Ends q text)
    (hpq : ∀ c, p c = true → q c = true) : Ends p text := by
  intro c hc
  have hq := h c hc
  rw [Bool.eq_false_iff] at hq ⊢
  exact fun hp => hq (hpq c hp)

/-! ### Character classes -/

/-- What holds for the first 128 characters by computation holds for every ASCII character. -/
theorem ofAscii {P : Char → Prop} (h : ∀ n < 128, P (Char.ofNat n)) {c : Char}
    (hc : c.toNat < 128) : P c := by
  simpa using h c.toNat hc

theorem isDigit_ascii {c : Char} (h : c.isDigit = true) : c.toNat < 128 := by
  simp only [Char.isDigit, Bool.and_eq_true, decide_eq_true_eq, UInt32.le_iff_toNat_le] at h
  have : c.toNat = c.val.toNat := rfl
  have : '9'.val.toNat = 57 := rfl
  omega

theorem isHexDigit_ascii {c : Char} (h : isHexDigit c = true) : c.toNat < 128 := by
  simp only [isHexDigit, Bool.or_eq_true, Bool.and_eq_true, decide_eq_true_eq, Char.le_def,
    UInt32.le_iff_toNat_le] at h
  have : c.toNat = c.val.toNat := rfl
  have : 'f'.val.toNat = 102 := rfl
  have : 'F'.val.toNat = 70 := rfl
  rcases h with (h | h) | h
  · exact isDigit_ascii h
  · omega
  · omega

theorem isWordChar_of_isHexDigit {c : Char} (h : isHexDigit c = true) :
    Page.isWordChar c = true := by
  have hlt := isHexDigit_ascii h
  revert h
  exact ofAscii (P := fun c => isHexDigit c = true → Page.isWordChar c = true)
    (by decide) hlt

theorem isWordChar_of_isDigit {c : Char} (h : c.isDigit = true) : Page.isWordChar c = true :=
  isWordChar_of_isHexDigit (by simp [isHexDigit, h])

theorem isWordChar_of_isIdPart {c : Char} (h : isIdPart c = true) :
    Page.isWordChar c = true := by
  simp [Page.isWordChar, h]

theorem isIdPart_of_isIdStart {c : Char} (h : isIdStart c = true) : isIdPart c = true := by
  simp [isIdPart, h]

/-! ### Runs, names and numbers -/

theorem run_take_append {p : Char → Bool} {text : List Char} {n : Nat} (rest : List Char)
    (hn : run p text ≤ n) (hlen : n ≤ text.length) (h : run p text = n → Ends p rest) :
    run p (text.take n ++ rest) = run p text := by
  induction text generalizing n with
  | nil =>
    obtain rfl : n = 0 := by simpa using hlen
    cases rest with
    | nil => rfl
    | cons c rest => simpa [run] using h rfl
  | cons c text ih =>
    by_cases hc : p c = true
    · simp only [run, hc, if_true] at hn h ⊢
      obtain ⟨m, rfl⟩ : ∃ m, n = m + 1 := ⟨n - 1, by omega⟩
      simp only [List.take_succ_cons, List.cons_append, run, hc, if_true, Nat.add_right_cancel_iff]
      exact ih (by omega) (by simpa using hlen) (fun heq => h (by omega))
    · simp only [run, hc] at hn h ⊢
      cases n with
      | zero =>
        cases rest with
        | nil => simp [run]
        | cons d rest => simpa [run] using h rfl
      | succ m => simp [run, hc]

/-- A run goes through all that belongs to it, and no further. -/
theorem run_append {p : Char → Bool} {front rest : List Char} (hfront : front.all p = true)
    (hrest : Ends p rest) : run p (front ++ rest) = front.length := by
  induction front with
  | nil =>
    cases rest with
    | nil => rfl
    | cons c rest => simp [run, ends_cons.mp hrest]
  | cons c front ih =>
    rw [List.all_cons, Bool.and_eq_true] at hfront
    simp [run, hfront.1, ih hfront.2]

theorem name_cons {c : Char} (hc : c ≠ '\\') (rest : List Char) :
    name (c :: rest) = if isIdPart c then shift 1 (name rest) else .ok 0 := by
  rw [name.eq_def]
  split
  · next heq => exact absurd (List.cons.inj heq).1 hc
  · next heq => exact absurd (List.cons.inj heq).1 hc
  · next heq =>
    obtain ⟨rfl, rfl⟩ := List.cons.inj heq
    rfl
  · next heq => cases heq

theorem name_of_ends {text : List Char} (h : Ends Page.isWordChar text) : name text = .ok 0 := by
  cases text with
  | nil => rfl
  | cons c rest =>
    simp only [ends_cons, Page.isWordChar, Bool.or_eq_false_iff, beq_eq_false_iff_ne] at h
    rw [name_cons h.2, h.1]
    rfl

theorem name_take_append {text : List Char} {n : Nat} {rest : List Char} (h : name text = .ok n)
    (hr : Ends Page.isWordChar rest) : name (text.take n ++ rest) = .ok n := by
  fun_induction name text generalizing n with
  | case1 a b c d text hex ih =>
    obtain ⟨k, hk, rfl⟩ := shift_eq_ok h
    simp only [List.take_succ_cons, List.cons_append, name, hex, if_true, ih hk, shift]
  | case2 => simp at h
  | case3 => simp at h
  | case4 c text hesc hback hc ih =>
    obtain ⟨k, hk, rfl⟩ := shift_eq_ok h
    simp only [List.take_succ_cons, List.cons_append, name_cons hback, hc, if_true, ih hk, shift]
  | case5 | case6 =>
    obtain rfl : 0 = n := by simpa using h
    exact name_of_ends hr

theorem drop_take_append {text : List Char} {k n : Nat} (hk : k ≤ n) (hn : n ≤ text.length)
    (rest : List Char) :
    (text.take n ++ rest).drop k = (text.drop k).take (n - k) ++ rest := by
  have hlen : k ≤ (text.take n).length := by rw [List.length_take]; omega
  rw [List.drop_append_of_le_length hlen, List.drop_take]

/-- A fraction that ends before the cut, or at it and before a text that has no more of it. -/
theorem fraction_take_append {text : List Char} {n : Nat} (rest : List Char)
    (hn : fraction text ≤ n) (hlen : n ≤ text.length)
    (h : fraction text = n → Ends Char.isDigit rest)
    (hpoint : n = 0 → Ends (· == '.') rest) :
    fraction (text.take n ++ rest) = fraction text := by
  cases n with
  | zero =>
    have hpoint := hpoint rfl
    have htext : fraction text = 0 := by omega
    rw [htext, List.take_zero, List.nil_append]
    cases rest with
    | nil => rfl
    | cons c rest =>
      rw [fraction.eq_def]
      split
      · next heq => simp [(List.cons.inj heq).1] at hpoint
      · rfl
  | succ n =>
    cases text with
    | nil => simp at hlen
    | cons c text =>
      by_cases hc : c = '.'
      · subst hc
        simp only [fraction, List.take_succ_cons, List.cons_append, List.length_cons] at *
        rw [run_take_append rest (by omega) (by omega) (fun heq => h (by omega))]
      · simp only [List.take_succ_cons, List.cons_append]
        rw [fraction.eq_def, fraction.eq_def]
        split
        · next heq => exact absurd (List.cons.inj heq).1 hc
        · split
          · next heq => exact absurd (List.cons.inj heq).1 hc
          · rfl

theorem exponentSign_take_append {text : List Char} {n : Nat} (rest : List Char) (hn : 0 < n)
    (hlen : n ≤ text.length) : exponentSign (text.take n ++ rest) = exponentSign text := by
  cases text with
  | nil => simp at hlen; omega
  | cons c text =>
    obtain ⟨m, rfl⟩ : ∃ m, n = m + 1 := ⟨n - 1, by omega⟩
    rfl

theorem exponent_of_ends {text : List Char} (h : Ends Page.isWordChar text) :
    exponent text = some 0 := by
  cases text with
  | nil => rfl
  | cons c rest =>
    have he : ¬ (c = 'e' ∨ c = 'E') := by
      rintro (rfl | rfl) <;> exact absurd (ends_cons.mp h) (by decide)
    simp [exponent, he]

theorem exponent_take_append {text : List Char} {n : Nat} {rest : List Char}
    (h : exponent text = some n) (hr : Ends Page.isWordChar rest) :
    exponent (text.take n ++ rest) = some n := by
  cases text with
  | nil =>
    obtain rfl : 0 = n := by simpa [exponent] using h
    exact exponent_of_ends hr
  | cons e text =>
    by_cases he : e = 'e' ∨ e = 'E'
    · simp only [exponent, he, if_true] at h
      split at h
      · simp at h
      · next digits hd =>
        obtain rfl : digits + exponentSign text + 2 = n := by simpa using h
        have hrun := run_le Char.isDigit (text.drop (exponentSign text))
        rw [List.length_drop] at hrun
        have hsign : exponentSign (text.take (digits + exponentSign text + 1) ++ rest) =
            exponentSign text :=
          exponentSign_take_append rest (by omega) (by omega)
        have hdigits := run_take_append rest (Nat.le_of_eq hd)
          (by rw [List.length_drop]; omega) fun _ => hr.mono fun c => isWordChar_of_isDigit
        simp only [List.take_succ_cons, List.cons_append, exponent, he, if_true, hsign]
        rw [drop_take_append (by omega) (by omega)]
        have hleft : digits + exponentSign text + 1 - exponentSign text = digits + 1 := by omega
        rw [hleft, hdigits, hd]
    · obtain rfl : 0 = n := by simpa [exponent, he] using h
      exact exponent_of_ends hr

/-- A text that a number may stand before: it goes on neither with a word nor, behind digits
only, with a point. -/
def EndsNumber (number rest : List Char) : Prop :=
  Ends Page.isWordChar rest ∧ (number.all Char.isDigit = true → Ends (· == '.') rest)

theorem all_take_run (p : Char → Bool) (text : List Char) :
    (text.take (run p text)).all p = true := by
  induction text with
  | nil => rfl
  | cons c text ih =>
    by_cases hc : p c = true
    · simpa [run, hc] using ih
    · simp [run, hc]

theorem decimal_take_append {text : List Char} {n : Nat} {rest : List Char}
    (h : decimal text = .ok n) (hr : EndsNumber (text.take n) rest) :
    decimal (text.take n ++ rest) = .ok n := by
  have hlen := decimal_le h
  simp only [decimal] at h
  split at h
  · simp at h
  · next k hk =>
    have hn : run Char.isDigit text + fraction (text.drop (run Char.isDigit text)) + k = n := by
      simpa using h
    have hdigit : Ends Char.isDigit rest := hr.1.mono fun c => isWordChar_of_isDigit
    have hrun := run_take_append rest (by omega) hlen fun _ => hdigit
    have hdrop := drop_take_append (k := run Char.isDigit text) (by omega) hlen rest
    have hfraction : fraction ((text.drop (run Char.isDigit text)).take
        (n - run Char.isDigit text) ++ rest) = fraction (text.drop (run Char.isDigit text)) := by
      refine fraction_take_append rest (by omega) ?_ (fun _ => hdigit) fun hzero => ?_
      · rw [List.length_drop]
        omega
      · apply hr.2
        rw [show n = run Char.isDigit text by omega]
        exact all_take_run _ _
    have hexponent := exponent_take_append hk hr.1
    simp only [decimal, hrun]
    rw [hdrop, hfraction, drop_take_append (by omega) hlen]
    rw [show n - (run Char.isDigit text + fraction (text.drop (run Char.isDigit text))) = k
      by omega, hexponent]
    simp [hn]

theorem numeral_eq_decimal {text : List Char}
    (h : ∀ x rest, text = '0' :: x :: rest → ¬ (x = 'x' ∨ x = 'X')) :
    numeral text = decimal text := by
  unfold numeral
  split
  · rw [if_neg (h _ _ rfl)]
  · rfl

theorem numeral_take_append {text : List Char} {n : Nat} {rest : List Char}
    (h : numeral text = .ok n) (hr : EndsNumber (text.take n) rest) :
    numeral (text.take n ++ rest) = .ok n := by
  by_cases hhex : ∃ x inner, text = '0' :: x :: inner ∧ (x = 'x' ∨ x = 'X')
  · obtain ⟨x, inner, rfl, hx⟩ := hhex
    simp only [numeral, hx, if_true] at h
    split at h
    · simp at h
    · next digits hd =>
      obtain rfl : digits + 3 = n := by simpa using h
      have hdigits := run_take_append rest (Nat.le_of_eq hd)
        (hd ▸ run_le _ _) fun _ => hr.1.mono fun c => isWordChar_of_isHexDigit
      simp only [List.take_succ_cons, List.cons_append, numeral, hx, if_true, hdigits, hd]
  · rw [numeral_eq_decimal fun x inner heq hx => hhex ⟨x, inner, heq, hx⟩] at h
    rw [numeral_eq_decimal, decimal_take_append h hr]
    intro x inner heq hx
    have hlen := decimal_le h
    obtain _ | _ | m := n
    · rw [List.take_zero, List.nil_append] at heq
      subst heq
      exact absurd (ends_cons.mp hr.1) (by decide)
    · obtain ⟨c, text, rfl⟩ := List.exists_cons_of_length_pos (by omega : 0 < text.length)
      obtain ⟨rfl, rfl⟩ := List.cons.inj heq
      rcases hx with rfl | rfl <;> exact absurd (ends_cons.mp hr.1) (by decide)
    · obtain ⟨c, text, rfl⟩ := List.exists_cons_of_length_pos (by omega : 0 < text.length)
      simp only [List.length_cons] at hlen
      obtain ⟨d, text, rfl⟩ := List.exists_cons_of_length_pos (by omega : 0 < text.length)
      simp only [List.take_succ_cons, List.cons_append, List.cons.injEq] at heq
      exact hhex ⟨x, text, by rw [heq.1, heq.2.1], hx⟩

theorem number_take_append {text : List Char} {n : Nat} {rest : List Char}
    (h : number text = .ok n) (hr : EndsNumber (text.take n) rest) :
    number (text.take n ++ rest) = .ok n := by
  have hlen := number_le h
  have hnumeral : numeral text = .ok n := by
    simp only [number] at h
    split at h
    · simp at h
    · next k hk =>
      split at h
      · split at h
        · simp at h
        · rw [hk, h]
      · rw [hk, h]
  simp only [number, numeral_take_append hnumeral hr]
  rw [drop_take_append (Nat.le_refl n) hlen, Nat.sub_self, List.take_zero, List.nil_append]
  cases rest with
  | nil => rfl
  | cons c rest =>
    have hc := ends_cons.mp hr.1
    have hdigit : c.isDigit = false := by
      simpa using (hr.1.mono fun c => isWordChar_of_isDigit : Ends Char.isDigit (c :: rest))
    simp only [Page.isWordChar, isIdPart, Bool.or_eq_false_iff] at hc
    simp [hc, hdigit]

/-! ### Strings, regular expressions and signs -/

theorem head?_take_append {text : List Char} {n : Nat} (rest : List Char) (hn : 0 < n)
    (hlen : n ≤ text.length) : (text.take n ++ rest).head? = text.head? := by
  cases text with
  | nil => simp at hlen; omega
  | cons c text =>
    obtain ⟨m, rfl⟩ : ∃ m, n = m + 1 := ⟨n - 1, by omega⟩
    rfl

theorem string_pos {quote : Char} {text : List Char} {n : Nat} (h : string quote text = some n) :
    0 < n := by
  fun_induction string quote text generalizing n with
  | case1 => simp at h
  | case2 => obtain ⟨k, _, rfl⟩ := Option.map_eq_some_iff.mp h; omega
  | case3 => obtain ⟨k, _, rfl⟩ := Option.map_eq_some_iff.mp h; omega
  | case4 => simp at h
  | case5 => simp at h; omega
  | case6 => obtain ⟨k, _, rfl⟩ := Option.map_eq_some_iff.mp h; omega

theorem string_escape {quote c : Char} {text : List Char}
    (h : c = '\r' → text.head? ≠ some '\n') :
    string quote ('\\' :: c :: text) = (string quote text).map (· + 2) := by
  rw [string.eq_def]
  split
  · next heq => cases heq
  · next heq =>
    simp only [List.cons.injEq, true_and] at heq
    exact absurd (by rw [heq.2]; rfl) (h heq.1)
  · next heq =>
    simp only [List.cons.injEq, true_and] at heq
    rw [heq.2]
  · next hesc heq =>
    simp only [List.cons.injEq] at heq
    exact absurd heq.2.symm (hesc _ _ heq.1.symm)

theorem string_cons {quote c : Char} {text : List Char} (hline : isLineTerminator c = false)
    (hc : c ≠ '\\') :
    string quote (c :: text) = if c = quote then some 1 else (string quote text).map (· + 1) := by
  rw [string.eq_def]
  split
  · next heq => cases heq
  · next heq => exact absurd (List.cons.inj heq).1 hc
  · next heq => exact absurd (List.cons.inj heq).1 hc
  · next heq =>
    obtain ⟨rfl, rfl⟩ := List.cons.inj heq
    simp [hline, hc]

theorem string_take_append {quote : Char} {text : List Char} {n : Nat} (rest : List Char)
    (h : string quote text = some n) : string quote (text.take n ++ rest) = some n := by
  fun_induction string quote text generalizing n with
  | case1 => simp at h
  | case2 text ih =>
    obtain ⟨k, hk, rfl⟩ := Option.map_eq_some_iff.mp h
    simp only [List.take_succ_cons, List.cons_append, string, ih hk, Option.map_some]
  | case3 c text hcrlf ih =>
    obtain ⟨k, hk, rfl⟩ := Option.map_eq_some_iff.mp h
    simp only [List.take_succ_cons, List.cons_append]
    rw [string_escape, ih hk, Option.map_some]
    intro hc
    rw [head?_take_append rest (string_pos hk) (string_le hk)]
    intro hhead
    obtain ⟨text, rfl⟩ := List.head?_eq_some_iff.mp hhead
    exact hcrlf text hc rfl
  | case4 => simp at h
  | case5 text _ _ hline =>
    obtain rfl : 1 = n := by simpa using h
    simp only [Bool.or_eq_true, beq_iff_eq, not_or, Bool.not_eq_true] at hline
    rw [List.take_succ_cons, List.cons_append, string_cons hline.1 hline.2, if_pos rfl]
  | case6 c text _ _ hline hquote ih =>
    obtain ⟨k, hk, rfl⟩ := Option.map_eq_some_iff.mp h
    simp only [Bool.or_eq_true, beq_iff_eq, not_or, Bool.not_eq_true] at hline
    rw [List.take_succ_cons, List.cons_append, string_cons hline.1 hline.2, if_neg hquote, ih hk]
    rfl

theorem regexBody_cons {inClass : Bool} {c : Char} {text : List Char}
    (hline : isLineTerminator c = false) (hc : c ≠ '\\') :
    regexBody inClass (c :: text) = if c = '/' ∧ inClass = false then some 1
      else (regexBody (c == '[' || (inClass && c != ']')) text).map (· + 1) := by
  rw [regexBody.eq_def]
  split
  · next heq => cases heq
  · next heq => exact absurd (List.cons.inj heq).1 hc
  · next heq =>
    obtain ⟨rfl, rfl⟩ := List.cons.inj heq
    simp [hline, hc]

theorem regexBody_take_append {inClass : Bool} {text : List Char} {n : Nat} (rest : List Char)
    (h : regexBody inClass text = some n) :
    regexBody inClass (text.take n ++ rest) = some n := by
  fun_induction regexBody inClass text generalizing n with
  | case1 => simp at h
  | case2 => simp at h
  | case3 _ c text hc ih =>
    obtain ⟨k, hk, rfl⟩ := Option.map_eq_some_iff.mp h
    simp only [List.take_succ_cons, List.cons_append, regexBody, hc, ih hk, Option.map_some]
    rfl
  | case4 => simp at h
  | case5 _ c text _ hline hslash =>
    obtain rfl : 1 = n := by simpa using h
    simp only [Bool.or_eq_true, beq_iff_eq, not_or, Bool.not_eq_true] at hline
    rw [List.take_succ_cons, List.cons_append, regexBody_cons hline.1 hline.2, if_pos hslash]
  | case6 _ c text _ hline hslash ih =>
    obtain ⟨k, hk, rfl⟩ := Option.map_eq_some_iff.mp h
    simp only [Bool.or_eq_true, beq_iff_eq, not_or, Bool.not_eq_true] at hline
    rw [List.take_succ_cons, List.cons_append, regexBody_cons hline.1 hline.2, if_neg hslash,
      ih hk]
    rfl

theorem regex_take_append {text : List Char} {n : Nat} {rest : List Char}
    (h : regex text = some n) (hr : Ends isIdPart rest) :
    regex (text.take n ++ rest) = some n := by
  have hlen := regex_le h
  obtain ⟨k, hk, rfl⟩ := Option.map_eq_some_iff.mp h
  have hflags : run isIdPart ((text.drop (k + 1)).take (run isIdPart (text.drop (k + 1))) ++ rest)
      = run isIdPart (text.drop (k + 1)) :=
    run_take_append rest (Nat.le_refl _) (run_le _ _) fun _ => hr
  have hbehind : (text.take (k + 1 + run isIdPart (text.drop (k + 1))) ++ rest).drop (k + 1) =
      (text.drop (k + 1)).take (run isIdPart (text.drop (k + 1))) ++ rest := by
    rw [drop_take_append (by omega) hlen, Nat.add_sub_cancel_left]
  have hbody : regexBody false
      ((text.take (k + 1 + run isIdPart (text.drop (k + 1))) ++ rest).drop 1) = some k := by
    rw [drop_take_append (by omega) hlen, Nat.add_right_comm, Nat.add_sub_cancel, List.take_add,
      List.append_assoc]
    exact regexBody_take_append _ hk
  simp only [regex, hbody, hbehind, hflags, Option.map_some]

/-- A text that a sign may stand before: the two make no longer sign, no number and no comment. -/
def EndsSign (sign rest : List Char) : Prop :=
  (∀ longer ∈ punctuators, longer.toList <+: sign ++ rest → longer.toList.length ≤ sign.length) ∧
    (sign = ['.'] → Ends Char.isDigit rest) ∧
    (sign = ['/'] → Ends (fun c => c == '/' || c == '*') rest)

/-- Longer signs come first. -/
theorem punctuators_pairwise :
    punctuators.Pairwise fun a b => b.toList.length ≤ a.toList.length := by
  decide

theorem punct_take_append {text : List Char} {n : Nat} (rest : List Char)
    (h : punct text = some n)
    (hr : ∀ longer ∈ punctuators, longer.toList <+: text.take n ++ rest →
      longer.toList.length ≤ n) : punct (text.take n ++ rest) = some n := by
  obtain ⟨sign, hs, rfl⟩ := Option.map_eq_some_iff.mp h
  have hfits : sign.toList <+: text := by simpa using List.find?_some hs
  have htake : text.take sign.toList.length = sign.toList :=
    (List.prefix_iff_eq_take.mp hfits).symm
  rw [htake] at hr ⊢
  have hfound : (punctuators.find? fun s => s.toList.isPrefixOf (sign.toList ++ rest)).isSome := by
    rw [List.find?_isSome]
    exact ⟨sign, List.mem_of_find?_eq_some hs, by simp⟩
  obtain ⟨found, hfound⟩ := Option.isSome_iff_exists.mp hfound
  obtain ⟨hfits', before, behind, hsplit, hbefore⟩ := List.find?_eq_some_iff_append.mp hfound
  have hle : found.toList.length ≤ sign.toList.length :=
    hr found (List.mem_of_find?_eq_some hfound) (by simpa using hfits')
  have hge : sign.toList.length ≤ found.toList.length := by
    have hmem := List.mem_of_find?_eq_some hs
    rw [hsplit, List.mem_append, List.mem_cons] at hmem
    rcases hmem with hmem | rfl | hmem
    · exact absurd (hbefore sign hmem) (by simp)
    · exact Nat.le_refl _
    · have hpairs := punctuators_pairwise
      rw [hsplit, List.pairwise_append, List.pairwise_cons] at hpairs
      exact hpairs.2.1.1 sign hmem
  rw [punct, hfound, Option.map_some, Nat.le_antisymm hle hge]

/-! ### Tokens and gaps -/

/-- A text that a token of the given kind and spelling may stand before. -/
def Parts (kind : TokenKind) (token rest : List Char) : Prop :=
  match kind with
  | .name => Ends Page.isWordChar rest
  | .number => EndsNumber token rest
  | .string => True
  | .punct => EndsSign token rest
  | .regex => Ends isIdPart rest
  | .endOfText => rest = []

theorem parts_nil {kind : TokenKind} {token : List Char} : Parts kind token [] := by
  cases kind with
  | name => exact ends_nil _
  | number => exact ⟨ends_nil _, fun _ => ends_nil _⟩
  | string => trivial
  | punct =>
    refine ⟨fun longer _ hfits => ?_, fun _ => ends_nil _, fun _ => ends_nil _⟩
    simpa using hfits.length_le
  | regex => exact ends_nil _
  | endOfText => rfl

theorem name_pos {c : Char} {text : List Char} {n : Nat}
    (hc : (isIdStart c || c == '\\') = true) (h : name (c :: text) = .ok n) : 0 < n := by
  by_cases hback : c = '\\'
  · subst hback
    rw [name.eq_def] at h
    split at h
    · split at h
      · obtain ⟨k, _, rfl⟩ := shift_eq_ok h
        omega
      · simp at h
    · simp at h
    · next hesc heq => exact absurd (List.cons.inj heq).1.symm hesc
    · next heq => cases heq
  · have hpart : isIdPart c = true := by
      simp only [hback, Bool.or_eq_true, beq_iff_eq, or_false] at hc
      exact isIdPart_of_isIdStart hc
    rw [name_cons hback, if_pos hpart] at h
    obtain ⟨k, _, rfl⟩ := shift_eq_ok h
    omega

theorem decimal_ge {text : List Char} {n : Nat} (h : decimal text = .ok n) :
    run Char.isDigit text + fraction (text.drop (run Char.isDigit text)) ≤ n := by
  simp only [decimal] at h
  split at h
  · simp at h
  · simp only [Except.ok.injEq] at h
    omega

theorem numeral_of_number {text : List Char} {n : Nat} (h : number text = .ok n) :
    numeral text = .ok n := by
  simp only [number] at h
  split at h
  · simp at h
  · next k hk =>
    split at h
    · split at h
      · simp at h
      · rw [hk, h]
    · rw [hk, h]

/-- A number that begins with a point has a digit behind it. -/
theorem number_point {d : Char} {text : List Char} {n : Nat} (hd : d.isDigit = true)
    (h : number ('.' :: d :: text) = .ok n) : 2 ≤ n := by
  have hnumeral := numeral_of_number h
  rw [numeral_eq_decimal (by simp)] at hnumeral
  have hge := decimal_ge hnumeral
  have hrun : run Char.isDigit ('.' :: d :: text) = 0 := rfl
  rw [hrun, List.drop_zero] at hge
  simp only [fraction, run, hd, if_true] at hge
  omega

theorem number_digit {c : Char} {text : List Char} {n : Nat} (hc : c.isDigit = true)
    (h : number (c :: text) = .ok n) : 0 < n := by
  have hnumeral := numeral_of_number h
  unfold numeral at hnumeral
  have hdecimal {k : Nat} (hk : decimal (c :: text) = .ok k) : 0 < k := by
    have hge := decimal_ge hk
    simp only [run, hc, if_true] at hge
    omega
  split at hnumeral
  · split at hnumeral
    · split at hnumeral
      · simp at hnumeral
      · simp only [Except.ok.injEq] at hnumeral
        omega
    · next heq _ => exact hdecimal (heq ▸ hnumeral)
  · exact hdecimal hnumeral

theorem number_pos {c : Char} {text : List Char} {n : Nat}
    (hc : (c.isDigit || (c == '.' && text.head?.any Char.isDigit)) = true)
    (h : number (c :: text) = .ok n) : 0 < n := by
  by_cases hdigit : c.isDigit = true
  · exact number_digit hdigit h
  · simp only [hdigit, Bool.false_or, Bool.and_eq_true, beq_iff_eq] at hc
    obtain ⟨rfl, hhead⟩ := hc
    cases text with
    | nil => simp at hhead
    | cons d text => exact Nat.lt_of_lt_of_le Nat.two_pos (number_point hhead h)

theorem punct_le {text : List Char} {n : Nat} (h : punct text = some n) : n ≤ text.length := by
  obtain ⟨sign, -, hp, rfl⟩ := punct_eq_some h
  exact hp.length_le

theorem punct_pos {text : List Char} {n : Nat} (h : punct text = some n) : 0 < n := by
  obtain ⟨sign, hs, -, rfl⟩ := punct_eq_some h
  exact (by decide : ∀ sign ∈ punctuators, 0 < sign.toList.length) sign hs

theorem scan_kind {text : List Char} {kind : TokenKind} {n : Nat}
    (h : scan text = .ok (kind, n)) : kind ≠ .regex := by
  rintro rfl
  cases scan_eq_ok.mp h

/-- Only where there is no text is the end of the text. -/
theorem scan_end {text : List Char} {n : Nat} (h : scan text = .ok (.endOfText, n)) :
    text = [] := by
  cases scan_eq_ok.mp h
  rfl

/-- A character that begins nothing else begins a sign. -/
theorem scan_sign {c : Char} {text : List Char} {kind : TokenKind} {n : Nat}
    (h : scan (c :: text) = .ok (kind, n)) (hword : (isIdStart c || c == '\\') = false)
    (hnumber : c.isDigit = false ∧ c ≠ '.') (hquote : (c == '"' || c == '\'') = false) :
    kind = .punct := by
  cases scan_eq_ok.mp h with
  | name hc => exact absurd hc (by simp [hword])
  | number _ hc => exact absurd hc (by simp [hnumber])
  | string _ _ hc => exact absurd hc (by simp [hquote])
  | punct => rfl

theorem scan_digit {c : Char} {text : List Char} {kind : TokenKind} {n : Nat}
    (h : scan (c :: text) = .ok (kind, n)) (hdigit : c.isDigit = true) : kind = .number := by
  have hword : (isIdStart c || c == '\\') = false := by
    have hlt := isDigit_ascii hdigit
    revert hdigit
    exact ofAscii (P := fun c => c.isDigit = true → (isIdStart c || c == '\\') = false)
      (by decide) hlt
  cases scan_eq_ok.mp h with
  | name hc => exact absurd hc (by simp [hword])
  | number => rfl
  | string _ hc | punct _ hc => exact absurd hc (by simp [hdigit])

theorem scan_pos {text : List Char} {kind : TokenKind} {n : Nat} (h : scan text = .ok (kind, n))
    (hkind : kind ≠ .endOfText) : 0 < n := by
  cases scan_eq_ok.mp h with
  | endOfText => exact absurd rfl hkind
  | name hword hname => exact name_pos hword hname
  | number _ hdigit hnumber => exact number_pos hdigit hnumber
  | string => exact Nat.succ_pos _
  | punct _ _ _ hsign => exact punct_pos hsign

/-- A text that has been cut begins with the same character as before. -/
theorem cons_take_append {c : Char} {text : List Char} {n : Nat} (hn : 0 < n) (rest : List Char) :
    (c :: text).take n ++ rest = c :: (text.take (n - 1) ++ rest) := by
  obtain ⟨k, rfl⟩ : ∃ k, n = k + 1 := ⟨n - 1, by omega⟩
  rfl

/-- A point that begins a number is still followed by a digit where the text is cut behind it. -/
theorem digit_take_append {c : Char} {text : List Char} {n : Nat}
    (hdigit : (c.isDigit || (c == '.' && text.head?.any Char.isDigit)) = true)
    (hnumber : number (c :: text) = .ok n) (rest : List Char) :
    (c.isDigit || (c == '.' && (text.take (n - 1) ++ rest).head?.any Char.isDigit)) = true := by
  by_cases hc : c.isDigit = true
  · rw [hc, Bool.true_or]
  · simp only [hc, Bool.false_or, Bool.and_eq_true, beq_iff_eq] at hdigit
    obtain ⟨rfl, hhead⟩ := hdigit
    cases text with
    | nil => simp at hhead
    | cons d text =>
      have htwo := number_point hhead hnumber
      have hle := number_le hnumber
      simp only [List.length_cons] at hle
      rw [head?_take_append rest (by omega) (by simp only [List.length_cons]; omega), hhead]
      exact Bool.or_true _

/-- No number begins where a sign is cut off. -/
theorem sign_take_append {c : Char} {text : List Char} {n : Nat} {rest : List Char}
    (hdigit : (c.isDigit || (c == '.' && text.head?.any Char.isDigit)) = false)
    (hsign : punct (c :: text) = some n) (hr : EndsSign ((c :: text).take n) rest) :
    (c.isDigit || (c == '.' && (text.take (n - 1) ++ rest).head?.any Char.isDigit)) = false := by
  have hpos := punct_pos hsign
  have hle := punct_le hsign
  simp only [List.length_cons] at hle
  rw [Bool.or_eq_false_iff] at hdigit ⊢
  refine ⟨hdigit.1, ?_⟩
  by_cases hc : c = '.'
  · subst hc
    by_cases hone : n = 1
    · subst hone
      have hends : Ends Char.isDigit rest := hr.2.1 rfl
      cases rest with
      | nil => rfl
      | cons d rest => simpa using hends
    · rw [head?_take_append rest (by omega) (by omega)]
      exact hdigit.2
  · simp [hc]

theorem scan_take_append {text : List Char} {kind : TokenKind} {n : Nat} {rest : List Char}
    (h : scan text = .ok (kind, n)) (hr : Parts kind (text.take n) rest) :
    scan (text.take n ++ rest) = .ok (kind, n) := by
  rw [scan_eq_ok]
  cases scan_eq_ok.mp h with
  | endOfText =>
    obtain rfl : rest = [] := hr
    exact .endOfText
  | name hword hname =>
    have hagain := name_take_append hname hr
    rw [cons_take_append (name_pos hword hname)] at hagain ⊢
    exact .name hword hagain
  | number hword hdigit hnumber =>
    have hagain := number_take_append hnumber hr
    rw [cons_take_append (number_pos hdigit hnumber)] at hagain ⊢
    exact .number hword (digit_take_append hdigit hnumber rest) hagain
  | @string c text k hword hdigit hquote hstring =>
    have hagain := string_take_append rest hstring
    rw [cons_take_append (Nat.succ_pos k), Nat.succ_sub_one]
    have hpoint : c ≠ '.' := by
      rintro rfl
      simp at hquote
    rw [Bool.or_eq_false_iff] at hdigit
    exact .string hword (by simp [hdigit.1, hpoint]) hquote hagain
  | punct hword hdigit hquote hsign =>
    have hle := punct_le hsign
    have hagain := punct_take_append rest hsign fun longer hmem hfits => by
      have hshort := hr.1 longer hmem hfits
      rwa [List.length_take, Nat.min_eq_left hle] at hshort
    rw [cons_take_append (punct_pos hsign)] at hagain ⊢
    exact .punct hword (sign_take_append hdigit hsign hr) hquote hagain

/-- A token is read from its own spelling as it was read from the text. -/
theorem scan_take {text : List Char} {kind : TokenKind} {n : Nat}
    (h : scan text = .ok (kind, n)) : scan (text.take n) = .ok (kind, n) := by
  simpa using scan_take_append h parts_nil

theorem regex_take {text : List Char} {n : Nat} (h : regex text = some n) :
    regex (text.take n) = some n := by
  simpa using regex_take_append h (ends_nil _)

theorem regexBody_pos {inClass : Bool} {text : List Char} {n : Nat}
    (h : regexBody inClass text = some n) : 0 < n := by
  fun_induction regexBody inClass text generalizing n with
  | case1 => simp at h
  | case2 => simp at h
  | case3 => obtain ⟨k, _, rfl⟩ := Option.map_eq_some_iff.mp h; omega
  | case4 => simp at h
  | case5 => simp at h; omega
  | case6 => obtain ⟨k, _, rfl⟩ := Option.map_eq_some_iff.mp h; omega

theorem regex_ge {text : List Char} {n : Nat} (h : regex text = some n) : 2 ≤ n := by
  obtain ⟨k, hk, rfl⟩ := Option.map_eq_some_iff.mp h
  have := regexBody_pos hk
  omega

/-- There is no gap exactly before a character that neither is white space nor begins a
comment. -/
theorem gap_eq_zero {c : Char} {text : List Char} :
    gap (c :: text) = .ok 0 ↔ (isLineTerminator c || isBlank c) = false ∧
      (c = '/' → Ends (fun d => d == '/' || d == '*') text) := by
  have hshift (n : Nat) (r : Except Nat Nat) : shift (n + 1) r ≠ .ok 0 := by
    intro h
    obtain ⟨k, _, hk⟩ := shift_eq_ok h
    omega
  rw [gap.eq_def]
  by_cases hblank : (isLineTerminator c || isBlank c) = true
  · simp only [hblank, if_true, hshift, Bool.true_eq_false, false_and]
  · by_cases hslash : c = '/'
    · subst hslash
      simp only [if_neg hblank, if_pos, true_implies]
      rw [Bool.not_eq_true] at hblank
      split
      · simp [hshift (_ + 1)]
      · split
        · simp
        · simp [hshift (_ + 1)]
      · next hline hblock =>
        cases text with
        | nil => simp [hblank]
        | cons d text =>
          have hd : d ≠ '/' := fun hd => hline text (by rw [hd])
          have hd' : d ≠ '*' := fun hd => hblock text (by rw [hd])
          simp [hblank, hd, hd']
    · simp [hblank, hslash]

theorem gap_take_append {text : List Char} {n : Nat} {rest : List Char} (h : gap text = .ok 0)
    (hn : 0 < n) (hlen : n ≤ text.length)
    (hslash : text.take n = ['/'] → Ends (fun d => d == '/' || d == '*') rest) :
    gap (text.take n ++ rest) = .ok 0 := by
  obtain ⟨c, text, rfl⟩ := List.exists_cons_of_length_pos (by omega : 0 < text.length)
  obtain ⟨m, rfl⟩ : ∃ m, n = m + 1 := ⟨n - 1, by omega⟩
  rw [gap_eq_zero] at h
  rw [List.take_succ_cons, List.cons_append, gap_eq_zero]
  refine ⟨h.1, ?_⟩
  rintro rfl
  cases m with
  | zero => simpa using hslash rfl
  | succ m =>
    cases text with
    | nil => simp at hlen
    | cons d text => simpa using h.2 rfl

/-- White space in front makes a gap longer. -/
theorem gap_append {blanks text : List Char}
    (hblank : ∀ c ∈ blanks, (isLineTerminator c || isBlank c) = true) {n : Nat}
    (h : gap text = .ok n) : gap (blanks ++ text) = .ok (n + blanks.length) := by
  induction blanks with
  | nil => exact h
  | cons c blanks ih =>
    rw [List.cons_append, gap.eq_def]
    simp only [hblank c (List.mem_cons_self ..), if_true,
      ih fun d hd => hblank d (List.mem_cons_of_mem _ hd), shift, List.length_cons, Nat.add_assoc]

/-- White space is a gap. -/
theorem gap_blanks {blanks text : List Char}
    (hblank : ∀ c ∈ blanks, (isLineTerminator c || isBlank c) = true) (h : gap text = .ok 0) :
    gap (blanks ++ text) = .ok blanks.length := by
  rw [gap_append hblank h, Nat.zero_add]

end Lexeme
end EcmaPress

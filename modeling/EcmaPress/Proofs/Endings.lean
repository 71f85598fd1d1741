import EcmaPress.Proofs.Reading

/-!
# How tokens end

The last character of a token tells something of its kind: a word ends in a character of words, a
string in its quote, a sign as one of the signs does. So no token ends in a carriage return, and
what ends in a semicolon or a brace is that sign.
-/

namespace EcmaPress
namespace Lexeme

theorem all_take_name {text : List Char} {n : Nat} (h : name text = .ok n) :
    (text.take n).all Page.isWordChar = true := by
  fun_induction name text generalizing n with
  | case1 a b c d text hex ih =>
    obtain ⟨k, hk, rfl⟩ := shift_eq_ok h
    simp only [List.all_cons, List.all_nil, Bool.and_true, Bool.and_eq_true] at hex
    simp only [List.take_succ_cons, List.all_cons, ih hk, Bool.and_eq_true, Bool.and_true,
      isWordChar_of_isHexDigit hex.1, isWordChar_of_isHexDigit hex.2.1,
      isWordChar_of_isHexDigit hex.2.2.1, isWordChar_of_isHexDigit hex.2.2.2]
    decide
  | case2 => simp at h
  | case3 => simp at h
  | case4 c text _ _ hc ih =>
    obtain ⟨k, hk, rfl⟩ := shift_eq_ok h
    simp only [List.take_succ_cons, List.all_cons, ih hk, isWordChar_of_isIdPart hc, Bool.and_true]
  | case5 | case6 =>
    obtain rfl : 0 = n := by simpa using h
    rfl

/-- The last character of a front part satisfies a test. -/
def EndsIn (p : Char → Bool) (text : List Char) (n : Nat) : Prop :=
  ∃ c, (text.take n).getLast? = some c ∧ p c = true

theorem EndsIn.drop {p : Char → Bool} {text : List Char} {k n : Nat}
    (h : EndsIn p (text.drop k) n) : EndsIn p text (k + n) := by
  obtain ⟨c, hlast, hc⟩ := h
  refine ⟨c, ?_, hc⟩
  rw [List.take_add, List.getLast?_append, hlast, Option.some_or]

theorem EndsIn.mono {p q : Char → Bool} {text : List Char} {n : Nat} (h : EndsIn p text n)
    (hpq : ∀ c, p c = true → q c = true) : EndsIn q text n := by
  obtain ⟨c, hlast, hc⟩ := h
  exact ⟨c, hlast, hpq c hc⟩

theorem endsIn_all {p : Char → Bool} {text : List Char} {n : Nat}
    (hall : (text.take n).all p = true) (hn : 0 < n) (hlen : n ≤ text.length) :
    EndsIn p text n := by
  have hne : text.take n ≠ [] := by
    intro heq
    have := congrArg List.length heq
    rw [List.length_take, List.length_nil] at this
    omega
  exact ⟨_, List.getLast?_eq_some_getLast hne, List.all_eq_true.mp hall _ (List.getLast_mem hne)⟩

theorem endsIn_run {p : Char → Bool} {text : List Char} (h : 0 < run p text) :
    EndsIn p text (run p text) :=
  endsIn_all (all_take_run p text) h (run_le p text)

/-- What a number ends in. -/
def endsNumeral (c : Char) : Bool :=
  Page.isWordChar c || c == '.'

theorem endsNumeral_of_isDigit {c : Char} (h : c.isDigit = true) : endsNumeral c = true := by
  simp [endsNumeral, isWordChar_of_isDigit h]

theorem endsIn_fraction {text : List Char} (h : 0 < fraction text) :
    EndsIn endsNumeral text (fraction text) := by
  unfold fraction at h ⊢
  split
  · next rest =>
    cases hrun : run Char.isDigit rest with
    | zero => exact ⟨'.', rfl, by decide⟩
    | succ n =>
      have hdigits := (endsIn_run (show 0 < run Char.isDigit rest by omega)).mono
        fun c => endsNumeral_of_isDigit
      rw [← hrun, Nat.add_comm]
      exact EndsIn.drop hdigits
  · next hno =>
    split at h
    · exact absurd rfl (hno _)
    · omega

theorem endsIn_exponent {text : List Char} {n : Nat} (h : exponent text = some n) (hn : 0 < n) :
    EndsIn Char.isDigit text n := by
  unfold exponent at h
  split at h
  · next e rest =>
    split at h
    · split at h
      · cases h
      · next digits hdigits =>
        obtain rfl : digits + exponentSign rest + 2 = n := by simpa using h
        have hpos : 0 < run Char.isDigit (rest.drop (exponentSign rest)) := by omega
        have hrun := endsIn_run hpos
        rw [hdigits] at hrun
        rw [show digits + exponentSign rest + 2 = 1 + (exponentSign rest + (digits + 1)) by omega]
        exact EndsIn.drop hrun.drop
    · obtain rfl : 0 = n := by simpa using h
      omega
  · obtain rfl : 0 = n := by simpa using h
    omega

theorem endsIn_decimal {text : List Char} {n : Nat} (h : decimal text = .ok n) (hn : 0 < n) :
    EndsIn endsNumeral text n := by
  simp only [decimal] at h
  split at h
  · cases h
  · next k hk =>
    obtain rfl := Except.ok.inj h
    by_cases hexponent : 0 < k
    · exact ((endsIn_exponent hk hexponent).mono fun c => endsNumeral_of_isDigit).drop
    · obtain rfl : k = 0 := by omega
      rw [Nat.add_zero] at hn ⊢
      by_cases hfraction : 0 < fraction (text.drop (run Char.isDigit text))
      · exact (endsIn_fraction hfraction).drop
      · have hzero : fraction (text.drop (run Char.isDigit text)) = 0 := by omega
        rw [hzero, Nat.add_zero] at hn ⊢
        exact (endsIn_run hn).mono fun c => endsNumeral_of_isDigit

/-- A decimal number that ends in a point has digits before it and nothing else. -/
theorem decimal_point {text : List Char} (h : decimal text = .ok text.length)
    (hlast : text.getLast? = some '.') :
    ∃ digits, text = digits ++ ['.'] ∧ digits.all Char.isDigit = true := by
  have hno {n : Nat} (hends : EndsIn Char.isDigit text n) : n ≠ text.length := by
    rintro rfl
    obtain ⟨c, hc, hdigit⟩ := hends
    rw [List.take_length, hlast] at hc
    obtain rfl := Option.some.inj hc
    exact absurd hdigit (by decide)
  simp only [decimal] at h
  split at h
  · cases h
  · next k hk =>
    have hsum := Except.ok.inj h
    have hexponent : k = 0 := by
      rw [← Nat.le_zero, ← Nat.not_lt]
      exact fun hpos => hno (endsIn_exponent hk hpos).drop hsum
    rw [hexponent, Nat.add_zero] at hsum
    have hall := all_take_run Char.isDigit text
    by_cases hfraction : 0 < fraction (text.drop (run Char.isDigit text))
    · obtain ⟨rest, hrest⟩ : ∃ rest, text.drop (run Char.isDigit text) = '.' :: rest := by
        unfold fraction at hfraction
        split at hfraction
        · next rest heq => exact ⟨rest, heq⟩
        · omega
      rw [hrest, fraction] at hsum
      have hlen := congrArg List.length hrest
      rw [List.length_drop, List.length_cons] at hlen
      have hrun : run Char.isDigit rest = 0 := by
        rw [← Nat.le_zero, ← Nat.not_lt]
        intro hpos
        have hends : EndsIn Char.isDigit (text.drop (run Char.isDigit text))
            (1 + run Char.isDigit rest) := by
          rw [hrest]
          exact EndsIn.drop (endsIn_run hpos)
        exact hno hends.drop (by omega)
      obtain rfl : rest = [] := List.eq_nil_of_length_eq_zero (by omega)
      refine ⟨_, ?_, hall⟩
      rw [← hrest, List.take_append_drop]
    · have hwhole : run Char.isDigit text = text.length := by omega
      refine absurd hwhole (hno (endsIn_run ?_))
      rw [hwhole]
      exact List.length_pos_of_mem (List.mem_of_getLast? hlast)

theorem endsIn_numeral {text : List Char} {n : Nat} (h : numeral text = .ok n) (hn : 0 < n) :
    EndsIn endsNumeral text n := by
  unfold numeral at h
  split at h
  · next x rest =>
    split at h
    · split at h
      · cases h
      · next digits hdigits =>
        obtain rfl := Except.ok.inj h
        have hrun := (endsIn_run (show 0 < run isHexDigit rest by omega)).mono
          (q := endsNumeral) fun c hc => by simp [endsNumeral, isWordChar_of_isHexDigit hc]
        rw [hdigits] at hrun
        rw [show digits + 3 = 2 + (digits + 1) by omega]
        exact EndsIn.drop hrun
    · exact endsIn_decimal h hn
  · exact endsIn_decimal h hn

theorem scan_name {text : List Char} {n : Nat} (h : scan text = .ok (.name, n)) :
    name text = .ok n := by
  cases scan_eq_ok.mp h with
  | name _ hname => exact hname

theorem scan_number {text : List Char} {n : Nat} (h : scan text = .ok (.number, n)) :
    number text = .ok n := by
  cases scan_eq_ok.mp h with
  | number _ _ hnumber => exact hnumber

theorem endsIn_cons {p : Char → Bool} {c : Char} {text : List Char} {n : Nat}
    (h : EndsIn p text n) : EndsIn p (c :: text) (n + 1) := by
  rw [Nat.add_comm]
  exact EndsIn.drop h

/-- A string ends in its quote. -/
theorem endsIn_string {quote : Char} {text : List Char} {n : Nat}
    (h : string quote text = some n) : EndsIn (· == quote) text n := by
  fun_induction string quote text generalizing n with
  | case1 => cases h
  | case2 text ih =>
    obtain ⟨k, hk, rfl⟩ := Option.map_eq_some_iff.mp h
    exact endsIn_cons (endsIn_cons (endsIn_cons (ih hk)))
  | case3 c text _ ih =>
    obtain ⟨k, hk, rfl⟩ := Option.map_eq_some_iff.mp h
    exact endsIn_cons (endsIn_cons (ih hk))
  | case4 => cases h
  | case5 => 
    obtain rfl := Option.some.inj h
    exact ⟨_, rfl, by simp⟩
  | case6 c text _ _ _ _ ih =>
    obtain ⟨k, hk, rfl⟩ := Option.map_eq_some_iff.mp h
    exact endsIn_cons (ih hk)

/-- The body of a regular expression ends in a slash. -/
theorem endsIn_regexBody {inClass : Bool} {text : List Char} {n : Nat}
    (h : regexBody inClass text = some n) : EndsIn (· == '/') text n := by
  fun_induction regexBody inClass text generalizing n with
  | case1 => cases h
  | case2 => cases h
  | case3 _ c text _ ih =>
    obtain ⟨k, hk, rfl⟩ := Option.map_eq_some_iff.mp h
    exact endsIn_cons (endsIn_cons (ih hk))
  | case4 => cases h
  | case5 _ c text _ _ hslash =>
    obtain rfl := Option.some.inj h
    exact ⟨c, rfl, by simp [hslash.1]⟩
  | case6 _ c text _ _ _ ih =>
    obtain ⟨k, hk, rfl⟩ := Option.map_eq_some_iff.mp h
    exact endsIn_cons (ih hk)

/-- A regular expression ends in a slash or in one of its flags. -/
theorem endsIn_regex {text : List Char} {n : Nat} (h : regex text = some n) :
    EndsIn (fun c => c == '/' || isIdPart c) text n := by
  obtain ⟨k, hk, rfl⟩ := Option.map_eq_some_iff.mp h
  by_cases hflags : 0 < run isIdPart (text.drop (k + 1))
  · exact ((endsIn_run hflags).mono fun c hc => by simp [hc]).drop
  · have hzero : run isIdPart (text.drop (k + 1)) = 0 := by omega
    rw [hzero, Nat.add_zero, Nat.add_comm]
    exact ((endsIn_regexBody hk).mono fun c hc => by simp [hc]).drop

/-- A string ends in one of the two quotes. -/
theorem scan_string {text : List Char} {n : Nat} (h : scan text = .ok (.string, n)) :
    EndsIn (fun c => c == '"' || c == '\'') text n := by
  cases scan_eq_ok.mp h with
  | string _ _ hquote hstring =>
    refine (endsIn_cons (endsIn_string hstring)).mono fun d hd => ?_
    rw [eq_of_beq hd]
    exact hquote

theorem scan_punct {text : List Char} {n : Nat} (h : scan text = .ok (.punct, n)) :
    punct text = some n := by
  cases scan_eq_ok.mp h with
  | punct _ _ _ hsign => exact hsign

end Lexeme

/-- A token that is a sign is one of the signs. -/
theorem Token.Spelled.mem_punctuators {t : Token} (h : t.Spelled) (hkind : t.kind = .punct) :
    t.text ∈ punctuators := by
  rw [Spelled, hkind] at h
  obtain ⟨sign, hmem, hfits, hlen⟩ := Lexeme.punct_eq_some (Lexeme.scan_punct h)
  have heq : sign.toList = t.text.toList :=
    hfits.eq_of_length (by rw [← hlen, String.length_toList])
  rwa [← String.toList_injective heq]

/-- The characters that a token of a kind may end in. -/
def TokenKind.ends (kind : TokenKind) (c : Char) : Bool :=
  match kind with
  | .name => Page.isWordChar c
  | .number => Lexeme.endsNumeral c
  | .string => c == '"' || c == '\''
  | .regex => c == '/' || isIdPart c
  | .punct => punctuators.any fun sign => sign.toList.getLast? == some c
  | .endOfText => false

/-- A token ends as its kind allows. -/
theorem Token.StandsAt.ends {t : Token} {text : List Char} (h : t.StandsAt text) {c : Char}
    (hlast : t.text.toList.getLast? = some c) : t.kind.ends c = true := by
  have hlen : t.text.toList.take t.text.length = t.text.toList := by
    rw [← String.length_toList, List.take_length]
  have hof {p : Char → Bool} (hin : Lexeme.EndsIn p t.text.toList t.text.length) : p c = true := by
    obtain ⟨d, hd, hp⟩ := hin
    rw [hlen, hlast] at hd
    exact Option.some.inj hd ▸ hp
  by_cases hregex : t.kind = .regex
  · rw [hregex]
    exact hof (Lexeme.endsIn_regex (h.spelled_regex hregex))
  have hspelled := h.spelled_scan hregex
  cases hkind : t.kind with
  | regex => exact absurd hkind hregex
  | punct =>
    simp only [TokenKind.ends, List.any_eq_true, beq_iff_eq]
    exact ⟨t.text, hspelled.mem_punctuators hkind, hlast⟩
  | name =>
    rw [Spelled, hkind] at hspelled
    have hall := Lexeme.all_take_name (Lexeme.scan_name hspelled)
    rw [hlen] at hall
    exact List.all_eq_true.mp hall c (List.mem_of_getLast? hlast)
  | number =>
    rw [Spelled, hkind] at hspelled
    refine hof (Lexeme.endsIn_numeral (Lexeme.numeral_of_number (Lexeme.scan_number hspelled)) ?_)
    rw [← String.length_toList]
    exact List.length_pos_of_mem (List.mem_of_getLast? hlast)
  | string =>
    rw [Spelled, hkind] at hspelled
    exact hof (Lexeme.scan_string hspelled)
  | endOfText =>
    rw [Spelled, hkind] at hspelled
    rw [Lexeme.scan_end hspelled] at hlast
    cases hlast

end EcmaPress

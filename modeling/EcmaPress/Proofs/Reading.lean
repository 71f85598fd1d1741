import EcmaPress.Grammar.Parser
import EcmaPress.Proofs.Lexeme

/-!
# Tokens read one after the other

A parser moves over its text token by token. `Takes` is one such move, in which a slash may be
read as the beginning of a regular expression, and `Reads` is a run of them. Every move makes the
text shorter, and the spelling of what is read tells its kind.
-/

namespace EcmaPress

/-- A result that passes a test is an answer. -/
theorem exists_ok_of_any {ε α : Type} {x : Except ε α} {p : α → Bool}
    (h : x.toOption.any p = true) : ∃ a, x = .ok a ∧ p a = true := by
  cases x with
  | error e => cases h
  | ok a => exact ⟨a, rfl, h⟩

namespace Token

/-- A sign that may begin a regular expression. -/
def isSlash (token : Token) : Bool :=
  token.is "/" || token.is "/="

/-- The kind of token that a spelling begins with. -/
def kindOf (text : String) : Option TokenKind :=
  match Lexeme.scan text.toList with
  | .error _ => none
  | .ok (kind, _) => some kind

/-- A token that is read from its own spelling as what it is. -/
def Spelled (token : Token) : Prop :=
  Lexeme.scan token.text.toList = .ok (token.kind, token.text.length)

theorem StandsAt.take {token : Token} {text : List Char} (h : token.StandsAt text) :
    text.take token.text.length = token.text.toList :=
  (List.prefix_iff_eq_take.mp h.spelled).symm

theorem StandsAt.spelled_scan {token : Token} {text : List Char} (h : token.StandsAt text)
    (hkind : token.kind ≠ .regex) : token.Spelled := by
  rcases h.lexeme with hscan | hregex
  · rw [Spelled, ← h.take]
    exact Lexeme.scan_take hscan
  · exact absurd hregex.1 hkind

theorem StandsAt.spelled_regex {token : Token} {text : List Char} (h : token.StandsAt text)
    (hkind : token.kind = .regex) :
    Lexeme.regex token.text.toList = some token.text.length := by
  rcases h.lexeme with hscan | hregex
  · exact absurd hkind (Lexeme.scan_kind hscan)
  · rw [← h.take]
    exact Lexeme.regex_take hregex.2

/-- Only the end of the text has no character. -/
theorem StandsAt.length_pos {token : Token} {text : List Char} (h : token.StandsAt text)
    (hend : token.isEnd = false) : 0 < token.text.length := by
  rcases h.lexeme with hscan | hregex
  · exact Lexeme.scan_pos hscan (by simpa [isEnd] using hend)
  · exact Nat.lt_of_lt_of_le Nat.two_pos (Lexeme.regex_ge hregex.2)

/-- The spelling of a token tells its kind. -/
theorem Spelled.kindOf {t : Token} (h : t.Spelled) : kindOf t.text = some t.kind := by
  rw [Spelled] at h
  simp [Token.kindOf, h]

theorem Spelled.kind_congr {t u : Token} (ht : t.Spelled) (hu : u.Spelled)
    (htext : t.text = u.text) : t.kind = u.kind :=
  Option.some.inj (ht.kindOf.symm.trans (htext ▸ hu.kindOf))

end Token

namespace Cursor

/-- A token is read at the first cursor, and the second one stands behind it. -/
inductive Takes : Cursor → Token → Cursor → Prop
  | plain {c m : Cursor} : c.token.kind ≠ .regex → c.token.isEnd = false → c.next = .ok m →
      Takes c c.token m
  | regex {c r m : Cursor} : c.token.isSlash = true → c.asRegex = .ok r → r.next = .ok m →
      Takes c r.token m

/-- Tokens are read one after the other, from the first cursor to the second one. -/
inductive Reads : Cursor → List Token → Cursor → Prop
  | done {c : Cursor} : Reads c [] c
  | more {c m c' : Cursor} {t : Token} {ts : List Token} : Takes c t m → Reads m ts c' →
      Reads c (t :: ts) c'

theorem Takes.reads {c m : Cursor} {t : Token} (h : c.Takes t m) : c.Reads [t] m :=
  .more h .done

/-- A token can be taken from a cursor, which makes it the second cursor: either its own token, or
the regular expression that its slash begins. -/
inductive Offers : Cursor → Token → Cursor → Prop
  | plain {c : Cursor} : c.token.kind ≠ .regex → c.token.isEnd = false → Offers c c.token c
  | regex {c r : Cursor} : c.token.isSlash = true → c.asRegex = .ok r → Offers c r.token r

theorem takes_iff {c m : Cursor} {t : Token} :
    c.Takes t m ↔ ∃ r, c.Offers t r ∧ r.next = .ok m := by
  constructor
  · rintro (⟨hkind, hend, hnext⟩ | ⟨hslash, hr, hnext⟩)
    · exact ⟨c, .plain hkind hend, hnext⟩
    · exact ⟨_, .regex hslash hr, hnext⟩
  · rintro ⟨r, hkind, hnext⟩
    cases hkind with
    | plain hkind hend => exact .plain hkind hend hnext
    | regex hslash hr => exact .regex hslash hr hnext

theorem Reads.append {c m c' : Cursor} {ts us : List Token} (h : c.Reads ts m)
    (h' : m.Reads us c') : c.Reads (ts ++ us) c' := by
  induction h with
  | done => exact h'
  | more ht _ ih => exact .more ht (ih h')

theorem Reads.append_iff {c c' : Cursor} {ts us : List Token} :
    c.Reads (ts ++ us) c' ↔ ∃ m, c.Reads ts m ∧ m.Reads us c' := by
  refine ⟨fun h => ?_, fun ⟨m, h, h'⟩ => h.append h'⟩
  induction ts generalizing c with
  | nil => exact ⟨c, .done, h⟩
  | cons t ts ih =>
    cases h with
    | more htake hrest =>
      obtain ⟨m, hm, hm'⟩ := ih hrest
      exact ⟨m, .more htake hm, hm'⟩

/-! ### Where a cursor comes from -/

/-- The next token is found behind a gap. -/
theorem next_eq_ok {input : Input} {past : List Token} {c : Cursor} :
    input.next past = .ok c ↔ ∃ n kind m, Lexeme.gap input.chars = .ok n ∧
      Lexeme.scan (input.drop n).chars = .ok (kind, m) ∧
      c.token = (input.drop n).tokenOf kind m ((input.chars.take n).any isLineTerminator) ∧
      c.input = input.drop n ∧ c.past = past := by
  unfold Input.next
  split
  · next hgap => simp [hgap]
  · next n hgap =>
    dsimp only
    split
    · next hscan =>
      simp only [hgap, reduceCtorEq, Except.ok.injEq, false_iff]
      rintro ⟨n, kind, m, rfl, hscan', -⟩
      rw [hscan] at hscan'
      cases hscan'
    · next kind m hscan =>
      constructor
      · intro h
        obtain rfl := Except.ok.inj h
        exact ⟨n, kind, m, hgap, hscan, rfl, rfl, rfl⟩
      · rintro ⟨n', kind', m', hgap', hscan', htoken, hinput, hpast⟩
        rw [hgap] at hgap'
        obtain rfl := Except.ok.inj hgap'
        rw [hscan] at hscan'
        obtain ⟨rfl, rfl⟩ := Prod.mk.inj (Except.ok.inj hscan')
        cases c
        simp only at htoken hinput hpast
        subst htoken hinput hpast
        rfl

theorem asRegex_eq_ok {c r : Cursor} :
    c.asRegex = .ok r ↔ ∃ n, Lexeme.regex c.input.chars = some n ∧
      r.token = c.input.tokenOf .regex n c.token.newlineBefore ∧ r.input = c.input ∧
      r.past = c.past := by
  unfold Cursor.asRegex
  split
  · next hregex => simp [hregex]
  · next n hregex =>
    constructor
    · intro h
      obtain rfl := Except.ok.inj h
      exact ⟨n, hregex, rfl, rfl, rfl⟩
    · rintro ⟨n', hregex', htoken, hinput, hpast⟩
      rw [hregex] at hregex'
      obtain rfl := Option.some.inj hregex'
      cases r
      simp only at htoken hinput hpast
      subst htoken hinput hpast
      rfl

/-- What is no regular expression is the own token of a cursor. -/
theorem Offers.plain_eq {c r : Cursor} {t : Token} (h : c.Offers t r) (hkind : t.kind ≠ .regex) :
    t = c.token ∧ r = c := by
  cases h with
  | plain => exact ⟨rfl, rfl⟩
  | regex _ hr =>
    obtain ⟨n, -, htoken, -⟩ := asRegex_eq_ok.mp hr
    exact absurd (by rw [htoken]; rfl) hkind

theorem next_kind {input : Input} {past : List Token} {m : Cursor} (h : input.next past = .ok m) :
    m.token.kind ≠ .regex := by
  obtain ⟨n, kind, k, -, hscan, htoken, -⟩ := next_eq_ok.mp h
  rw [htoken]
  exact Lexeme.scan_kind hscan

theorem next_size {input : Input} {past : List Token} {m : Cursor} (h : input.next past = .ok m) :
    m.input.size ≤ input.size := by
  obtain ⟨n, kind, k, -, -, -, hinput, -⟩ := next_eq_ok.mp h
  rw [hinput]
  exact Nat.sub_le _ _

/-- Reading on makes the text shorter. -/
theorem size_lt {c m : Cursor} (hend : c.token.isEnd = false) (h : c.next = .ok m) :
    m.input.size < c.input.size := by
  have hsize := next_size h
  have hpos := c.stands.length_pos hend
  have hlen := c.stands.spelled.length_le
  simp only [Input.drop, String.length_toList] at hsize hlen
  have := c.input.size_eq
  omega

theorem Takes.size_lt {c m : Cursor} {t : Token} (h : c.Takes t m) :
    m.input.size < c.input.size := by
  cases h with
  | plain _ hend hnext => exact Cursor.size_lt hend hnext
  | regex _ hr hnext =>
    obtain ⟨n, -, htoken, hinput, -⟩ := asRegex_eq_ok.mp hr
    rw [← hinput]
    exact Cursor.size_lt (by rw [htoken]; rfl) hnext

theorem Reads.size_le {c c' : Cursor} {ts : List Token} (h : c.Reads ts c') :
    c'.input.size ≤ c.input.size := by
  induction h with
  | done => exact Nat.le_refl _
  | more htake _ ih => exact Nat.le_trans ih (Nat.le_of_lt htake.size_lt)

theorem Takes.kind {c m : Cursor} {t : Token} (h : c.Takes t m) : m.token.kind ≠ .regex := by
  cases h with
  | plain _ _ hnext => exact next_kind hnext
  | regex _ _ hnext => exact next_kind hnext

/-- Behind a token that was offered the text goes on. -/
theorem Offers.next {c r : Cursor} {t : Token} (h : c.Offers t r) :
    r.next = (c.input.drop t.text.length).next (t :: c.past) := by
  cases h with
  | plain => rfl
  | regex _ hr =>
    obtain ⟨-, -, -, hinput, hpast⟩ := asRegex_eq_ok.mp hr
    rw [Cursor.next, hinput, hpast]

/-- A cursor remembers the token that was read. -/
theorem Takes.past {c m : Cursor} {t : Token} (h : c.Takes t m) : m.past = t :: c.past := by
  cases h with
  | plain _ _ hnext =>
    obtain ⟨-, -, -, -, -, -, -, hpast⟩ := next_eq_ok.mp hnext
    exact hpast
  | regex _ hr hnext =>
    obtain ⟨-, -, -, -, -, -, -, hpast⟩ := next_eq_ok.mp hnext
    obtain ⟨-, -, -, -, hpast'⟩ := asRegex_eq_ok.mp hr
    rw [hpast, hpast']

theorem Reads.past {c c' : Cursor} {ts : List Token} (h : c.Reads ts c') :
    c'.past = ts.reverse ++ c.past := by
  induction h with
  | done => rfl
  | more htake _ ih => rw [ih, htake.past, List.reverse_cons, List.append_assoc]; rfl

/-- So the tokens between two cursors are determined. -/
theorem Reads.unique {c c' : Cursor} {ts us : List Token} (h : c.Reads ts c')
    (h' : c.Reads us c') : ts = us :=
  List.reverse_inj.mp (List.append_cancel_right (h.past.symm.trans h'.past))

end Cursor
end EcmaPress

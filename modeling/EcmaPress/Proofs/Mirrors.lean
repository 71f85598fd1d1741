import EcmaPress.Proofs.Spelling
import EcmaPress.Proofs.Steps
import EcmaPress.Tree.Relabel

/-!
# Parsers that mirror each other

A parser looks at tokens and at nothing else. Where one text makes it succeed, every text with the
same tokens does, wherever the tokens stand: it reads as many of them and answers the same, up to
places. And a text that offers these tokens, but cannot be read on behind one of them, makes it
fail. `Mirrors` states this of two parsers, of which the first one may differ from the second one
in what it was told of the tokens read before.
-/

namespace EcmaPress

/-- A token without its place. -/
def Token.unplaced (t : Token) : Token :=
  { t with pos := .start }

theorem Token.unplaced_eq {t u : Token} :
    t.unplaced = u.unplaced ↔
      t.kind = u.kind ∧ t.text = u.text ∧ t.newlineBefore = u.newlineBefore := by
  simp [unplaced]

/-- A token at another place. -/
def Token.placed (t : Token) (pos : Position) : Token :=
  { t with pos }

theorem Token.eq_placed {t u : Token} (h : t.unplaced = u.unplaced) : t = u.placed t.pos := by
  obtain ⟨hkind, htext, hbefore⟩ := Token.unplaced_eq.mp h
  cases t
  simp only at hkind htext hbefore
  subst hkind htext hbefore
  rfl

section

variable (t : Token) (pos : Position)

@[simp] theorem Token.kind_placed : (t.placed pos).kind = t.kind := rfl

@[simp] theorem Token.text_placed : (t.placed pos).text = t.text := rfl

@[simp] theorem Token.newlineBefore_placed : (t.placed pos).newlineBefore = t.newlineBefore := rfl

@[simp] theorem Token.is_placed (s : String) : (t.placed pos).is s = t.is s := rfl

@[simp] theorem Token.isEnd_placed : (t.placed pos).isEnd = t.isEnd := rfl

@[simp] theorem Token.isIdentifier_placed : (t.placed pos).isIdentifier = t.isIdentifier := rfl

end

namespace Cursor

/-- The tokens stand there, but behind one of them the text cannot be read on. -/
inductive Stuck : Cursor → List Token → Prop
  | here {c r : Cursor} {t : Token} {ts : List Token} {e : SyntaxError} : c.Offers t r →
      r.next = .error e → Stuck c (t :: ts)
  | more {c m : Cursor} {t : Token} {ts : List Token} : c.Takes t m → Stuck m ts →
      Stuck c (t :: ts)

theorem Stuck.append {c : Cursor} {ts us : List Token} (h : c.Stuck (ts ++ us)) :
    c.Stuck ts ∨ ∃ m, c.Reads ts m ∧ m.Stuck us := by
  induction ts generalizing c with
  | nil => exact .inr ⟨c, .done, h⟩
  | cons t ts ih =>
    cases h with
    | here hoffer hnext => exact .inl (.here hoffer hnext)
    | more htake hrest =>
      exact (ih hrest).imp (.more htake) fun ⟨m, hm, hm'⟩ => ⟨m, .more htake hm, hm'⟩

theorem Offers.spelled {c r : Cursor} {t : Token} (h : c.Offers t r) :
    t.kind = .regex ∧ c.token.isSlash = true ∧ t.newlineBefore = c.token.newlineBefore ∧
        t.text.toList <+: c.input.chars ∧ Lexeme.regex c.input.chars = some t.text.length ∨
      t.kind ≠ .regex ∧ t = c.token := by
  cases h with
  | plain hkind => exact .inr ⟨hkind, rfl⟩
  | regex hslash hr =>
    obtain ⟨n, hregex, htoken, hinput, -⟩ := asRegex_eq_ok.mp hr
    have hkind : r.token.kind = .regex := by rw [htoken]; rfl
    refine .inl ⟨hkind, hslash, by rw [htoken]; rfl, hinput ▸ r.stands.spelled, ?_⟩
    rcases r.stands.lexeme with hscan | ⟨-, hlexeme⟩
    · exact absurd hkind (Lexeme.scan_kind hscan)
    · rw [← hinput, hlexeme]

/-- Which of the two slashes stands in front of a regular expression shows in its second
character. -/
theorem slash_of_regex {c : Cursor} {t : Token} (hslash : c.token.isSlash = true)
    (hspelled : t.text.toList <+: c.input.chars) (hlen : 2 ≤ t.text.length) :
    c.token.kind = .punct ∧
      c.token.text = if t.text.toList[1]? = some '=' then "/=" else "/" := by
  have hkind := (Cursor.spelled (Token.isSlash_text hslash).1).slash_kind hslash
  refine ⟨hkind, ?_⟩
  obtain ⟨rest, hrest⟩ := hspelled
  obtain ⟨a, b, more, htext⟩ : ∃ a b more, t.text.toList = a :: b :: more := by
    rw [← String.length_toList] at hlen
    match t.text.toList, hlen with
    | a :: b :: more, _ => exact ⟨a, b, more, rfl⟩
  have hchars : c.input.chars = a :: b :: (more ++ rest) := by rw [← hrest, htext]; rfl
  obtain ⟨back, hback⟩ := c.stands.spelled
  have hscan : Lexeme.scan c.input.chars = .ok (.punct, c.token.text.length) := by
    rcases c.stands.lexeme with hscan | ⟨hregex, -⟩
    · rwa [hkind] at hscan
    · rw [hkind] at hregex
      cases hregex
  rw [htext]
  rcases (Token.isSlash_text hslash).2 with heq | heq
  · -- The longer sign would have been read if its second character stood there.
    rw [heq, hchars] at hback
    obtain rfl : '/' = a := (List.cons.inj hback).1
    by_cases hb : b = '='
    · subst hb
      rw [hchars, heq] at hscan
      simp [Lexeme.scan, Lexeme.punct, punctuators, show isIdStart '/' = false by decide,
        show Char.isDigit '/' = false by decide] at hscan
      exact absurd hscan (by decide)
    · simp [heq, hb]
  · rw [heq, hchars] at hback
    obtain rfl : '=' = b := (List.cons.inj (List.cons.inj hback).2).1
    simp [heq]

/-- What a cursor offers tells its own token. -/
theorem Offers.token_eq {c d r s : Cursor} {t u : Token} (h : c.Offers t r) (h' : d.Offers u s)
    (heq : t.unplaced = u.unplaced) : c.token.unplaced = d.token.unplaced := by
  obtain ⟨hkind, htext, hbefore⟩ := Token.unplaced_eq.mp heq
  rcases h.spelled with ⟨ht, hslash, hline, hspelled, hregex⟩ | ⟨ht, rfl⟩ <;>
    rcases h'.spelled with ⟨hu, hslash', hline', hspelled', hregex'⟩ | ⟨hu, rfl⟩
  · obtain ⟨hk, hs⟩ := slash_of_regex hslash hspelled (Lexeme.regex_ge hregex)
    obtain ⟨hk', hs'⟩ := slash_of_regex hslash' hspelled' (Lexeme.regex_ge hregex')
    exact Token.unplaced_eq.mpr
      ⟨hk.trans hk'.symm, by rw [hs, hs', htext], by rw [← hline, ← hline', hbefore]⟩
  · exact absurd (hkind.symm.trans ht) hu
  · exact absurd (hkind.trans hu) ht
  · exact heq

/-! Where the same tokens are read, up to places, the same token is shown in front of them. -/

namespace Reads

variable {c c' d : Cursor} {us vs : List Token}

theorem same_of_offers {t : Token} {r : Cursor} (h : c.Reads us c') (hoffer : d.Offers t r)
    (hsame : (t :: vs).map Token.unplaced = us.map Token.unplaced) :
    d.token.unplaced = c.token.unplaced := by
  cases h with
  | done => cases hsame
  | more htake _ =>
    obtain ⟨s, hoffer', -⟩ := takes_iff.mp htake
    rw [List.map_cons, List.map_cons] at hsame
    exact hoffer.token_eq hoffer' (List.cons.inj hsame).1

theorem same_of_reads {d' : Cursor} (h : c.Reads us c') (h' : d.Reads vs d')
    (hsame : vs.map Token.unplaced = us.map Token.unplaced)
    (hlast : d'.token.unplaced = c'.token.unplaced) : d.token.unplaced = c.token.unplaced := by
  cases h' with
  | done =>
    cases h with
    | done => exact hlast
    | more => cases hsame
  | more htake _ =>
    obtain ⟨r, hoffer, -⟩ := takes_iff.mp htake
    exact h.same_of_offers hoffer hsame

theorem same_of_stuck (h : c.Reads us c') (hstuck : d.Stuck vs)
    (hsame : vs.map Token.unplaced = us.map Token.unplaced) :
    d.token.unplaced = c.token.unplaced := by
  cases hstuck with
  | here hoffer _ => exact h.same_of_offers hoffer hsame
  | more htake _ =>
    obtain ⟨r, hoffer, -⟩ := takes_iff.mp htake
    exact h.same_of_offers hoffer hsame

end Reads

end Cursor

/-! ### Mirrored runs -/

namespace Parser

variable {α β γ δ : Type}

/-- What `q` reads from `d`, `p` reads from every text with the same tokens, and `p` fails on a text
that cannot be read on behind one of them. The answers agree as far as `e` can tell. -/
def Mirrors (e : α → β) (p q : Parser α) (d : Cursor) : Prop :=
  d.token.kind ≠ .regex → ∀ y d', q d = .ok (y, d') → ∃ us, d.Reads us d' ∧ ∀ c vs,
    c.token.unplaced = d.token.unplaced → vs.map Token.unplaced = us.map Token.unplaced →
      (∀ m, c.Reads vs m → m.token.unplaced = d'.token.unplaced →
        ∃ x, p c = .ok (x, m) ∧ e x = e y) ∧
      (c.Stuck vs → ∃ error, p c = .error error)

theorem bind_error {f : Parser α} {g : α → Parser γ} {c : Cursor} {e : SyntaxError}
    (h : f c = .error e) : (f >>= g) c = .error e := by
  change (f c >>= fun p => g p.1 p.2) = _
  rw [h]
  rfl

theorem advance_error {c : Cursor} {e : SyntaxError} (h : c.next = .error e) :
    advance c = .error e := by
  rw [advance, h]

theorem bind_run {f : Parser α} {g : α → Parser γ} {c m : Cursor} {x : α}
    (h : f c = .ok (x, m)) : (f >>= g) c = g x m := by
  change (f c >>= fun p => g p.1 p.2) = _
  rw [h]
  rfl

theorem kind_of_reads {c c' : Cursor} {ts : List Token} (hkind : c.token.kind ≠ .regex)
    (h : c.Reads ts c') : c'.token.kind ≠ .regex := by
  induction h with
  | done => exact hkind
  | more htake _ ih => exact ih htake.kind

namespace Mirrors

variable {e : α → β} {e' : γ → δ} {p q : Parser α} {d : Cursor}

/-- A parser that fails is mirrored by every parser. -/
theorem of_error (h : ∀ y d', q d ≠ .ok (y, d')) : Mirrors e p q d :=
  fun _ y d' hq => absurd hq (h y d')

theorem fail {fault : Fault} : Mirrors e p (Parser.fail fault) d :=
  of_error fun _ _ h => fail_eq_ok.mp h

theorem unexpected : Mirrors e p Parser.unexpected d :=
  of_error fun _ _ h => unexpected_eq_ok.mp h

theorem pure {x y : α} (h : e x = e y) : Mirrors e (pure x) (pure y) d := by
  intro _ z d' hz
  obtain ⟨rfl, rfl⟩ := pure_eq_ok.mp hz
  refine ⟨[], .done, fun c vs _ hvs => ?_⟩
  obtain rfl : vs = [] := by simpa using hvs
  refine ⟨fun m hm _ => ?_, fun hstuck => by cases hstuck⟩
  cases hm
  exact ⟨x, rfl, h⟩

theorem bind {f g : α → Parser γ} (h : Mirrors e p q d)
    (hnext : ∀ x y m, q d = .ok (y, m) → e x = e y → Mirrors e' (f x) (g y) m) :
    Mirrors e' (p >>= f) (q >>= g) d := by
  intro hkind z d' hz
  obtain ⟨y, n, hq, hg⟩ := bind_eq_ok.mp hz
  obtain ⟨us, hreads, hmirror⟩ := h hkind y n hq
  have hkind' := kind_of_reads hkind hreads
  -- What the second parser needs of the first one's answer does not matter for what it reads.
  have hread : ∃ us', n.Reads us' d' ∧ ∀ x, e x = e y → ∀ c vs,
      c.token.unplaced = n.token.unplaced → vs.map Token.unplaced = us'.map Token.unplaced →
        (∀ m, c.Reads vs m → m.token.unplaced = d'.token.unplaced →
          ∃ x', f x c = .ok (x', m) ∧ e' x' = e' z) ∧
        (c.Stuck vs → ∃ error, f x c = .error error) := by
    obtain ⟨us', hreads', -⟩ := hnext y y n hq rfl hkind' z d' hg
    refine ⟨us', hreads', fun x hx => ?_⟩
    obtain ⟨us'', hreads'', hmirror'⟩ := hnext x y n hq hx hkind' z d' hg
    rw [hreads'.unique hreads'']
    exact hmirror'
  obtain ⟨us', hreads', hmirror'⟩ := hread
  refine ⟨us ++ us', hreads.append hreads', fun c vs hc hvs => ?_⟩
  rw [List.map_append] at hvs
  obtain ⟨vs, vs', rfl, hus, hus'⟩ := List.map_eq_append_iff.mp hvs
  constructor
  · intro m hm hlast
    obtain ⟨k, hk, hk'⟩ := Cursor.Reads.append_iff.mp hm
    -- Between the two parts both texts show the same token: it is the next one, or the last one.
    have htoken := hreads'.same_of_reads hk' hus' hlast
    obtain ⟨x, hx, hxy⟩ := (hmirror c vs hc hus).1 k hk htoken
    obtain ⟨x', hx', hxz⟩ := (hmirror' x hxy k vs' htoken hus').1 m hk' hlast
    exact ⟨x', bind_eq_ok.mpr ⟨x, k, hx, hx'⟩, hxz⟩
  · intro hstuck
    rcases hstuck.append with hfirst | ⟨k, hk, hsecond⟩
    · obtain ⟨error, herror⟩ := (hmirror c vs hc hus).2 hfirst
      exact ⟨error, bind_error herror⟩
    · have htoken := hreads'.same_of_stuck hsecond hus'
      obtain ⟨x, hx, hxy⟩ := (hmirror c vs hc hus).1 k hk htoken
      obtain ⟨error, herror⟩ := (hmirror' x hxy k vs' htoken hus').2 hsecond
      exact ⟨error, by rw [bind_run hx, herror]⟩

/-- The token in front is known up to its place. -/
theorem peek {f g : Token → Parser α}
    (h : ∀ pos, Mirrors e (f (d.token.placed pos)) (g d.token) d) :
    Mirrors e (Parser.peek >>= f) (Parser.peek >>= g) d := by
  intro hkind y d' hy
  rw [peek_bind] at hy
  obtain ⟨us, hreads, -⟩ := h .start hkind y d' hy
  refine ⟨us, hreads, fun c vs hc hvs => ?_⟩
  obtain ⟨us', hreads', hmirror⟩ := h c.token.pos hkind y d' hy
  rw [hreads'.unique hreads, ← Token.eq_placed hc] at hmirror
  exact hmirror c vs hc hvs

theorem advance (hend : d.token.isEnd = false) :
    Mirrors Token.unplaced Parser.advance Parser.advance d := by
  intro hkind y d' hy
  obtain ⟨rfl, hnext⟩ := advance_eq_ok.mp hy
  refine ⟨[d.token], (Cursor.Takes.plain hkind hend hnext).reads, fun c vs hc hvs => ?_⟩
  obtain ⟨v, rfl, hv⟩ : ∃ v, vs = [v] ∧ v.unplaced = d.token.unplaced := by
    simpa [List.map_eq_cons_iff] using hvs
  have hkind' : v.kind ≠ .regex := (Token.unplaced_eq.mp hv).1 ▸ hkind
  constructor
  · intro m hm _
    cases hm with
    | more htake hrest =>
      cases hrest
      obtain ⟨r, hoffer, hnext'⟩ := Cursor.takes_iff.mp htake
      obtain rfl := (hoffer.plain_eq hkind').2
      exact ⟨r.token, advance_eq_ok.mpr ⟨rfl, hnext'⟩, hc⟩
  · intro hstuck
    cases hstuck with
    | here hoffer herror =>
      obtain rfl := (hoffer.plain_eq hkind').2
      exact ⟨_, advance_error herror⟩
    | more _ hrest => cases hrest

theorem ite {b b' : Prop} [Decidable b] [Decidable b'] {p' q' : Parser α} (hb : b ↔ b')
    (h : b' → Mirrors e p q d) (h' : ¬ b' → Mirrors e p' q' d) :
    Mirrors e (if b then p else p') (if b' then q else q') d := by
  by_cases hb' : b'
  · rw [if_pos (hb.mpr hb'), if_pos hb']
    exact h hb'
  · rw [if_neg fun hpos => hb' (hb.mp hpos), if_neg hb']
    exact h' hb'

theorem expect {text : String} :
    Mirrors Token.unplaced (Parser.expect text) (Parser.expect text) d :=
  .peek fun _ => .ite .rfl (fun his => .advance (Token.is_isEnd his)) fun _ => .unexpected

theorem eat {text : String} : Mirrors id (Parser.eat text) (Parser.eat text) d :=
  .peek fun _ => .ite .rfl
    (fun his => .bind (.advance (Token.is_isEnd his)) fun _ _ _ _ _ => .pure rfl) fun _ => .pure rfl

theorem identifier : Mirrors Identifier.name Parser.identifier Parser.identifier d :=
  .peek fun _ => .ite .rfl
    (fun hid => .bind (.advance (Token.isIdentifier_kind hid).2) fun _ _ _ _ hxy =>
      .pure (Token.unplaced_eq.mp hxy).2.1)
    fun _ => .unexpected

theorem semicolon : Mirrors id Parser.semicolon Parser.semicolon d :=
  .bind .eat fun x y _ _ hxy => by
    obtain rfl : x = y := hxy
    refine .ite .rfl (fun _ => .pure rfl) fun _ => ?_
    exact .peek fun _ => .ite .rfl (fun _ => .pure rfl) fun _ => .unexpected

/-- An answer in a wrapping, as parsers of optional parts give it. -/
theorem some (h : Mirrors e p q d) :
    Mirrors (Option.map e) (p >>= fun x => Pure.pure (Option.some x))
      (q >>= fun y => Pure.pure (Option.some y)) d :=
  h.bind fun _ _ _ _ hxy => .pure (congrArg Option.some hxy)

end Mirrors

/-! ### Loops and lists -/

/-- A step of a loop, which fails if it does not make the text shorter. -/
def progress (step : Parser (Option α)) : Parser (Option α) := fun c =>
  match step c with
  | .error e => .error e
  | .ok (none, c') => .ok (none, c')
  | .ok (some item, c') =>
    if c'.input.size < c.input.size then .ok (some item, c') else .error c'.unexpected

theorem progress_some {step : Parser (Option α)} {c c' : Cursor} {x : α} :
    progress step c = .ok (some x, c') ↔
      step c = .ok (some x, c') ∧ c'.input.size < c.input.size := by
  unfold progress
  split
  · next h => simp [h]
  · next h => simp [h]
  · next h =>
    rw [h]
    split
    · simp only [Except.ok.injEq, Prod.mk.injEq, Option.some.injEq, iff_self_and]
      rintro ⟨-, rfl⟩
      assumption
    · simp only [reduceCtorEq, Except.ok.injEq, Prod.mk.injEq, Option.some.injEq, false_iff]
      rintro ⟨⟨-, rfl⟩, hsize⟩
      omega

theorem progress_none {step : Parser (Option α)} {c c' : Cursor} :
    progress step c = .ok (none, c') ↔ step c = .ok (none, c') := by
  unfold progress
  split
  · next h => simp [h]
  · next h => simp [h]
  · next h =>
    rw [h]
    split <;> simp

/-- A loop as one step that makes progress, and the rest. -/
theorem many_eq (step : Parser (Option α)) :
    many step = progress step >>= fun
      | none => pure []
      | some item => many step >>= fun items => pure (item :: items) := by
  funext c
  cases hstep : step c with
  | error e =>
    have hprogress : progress step c = .error e := by rw [progress, hstep]
    rw [bind_error hprogress, many, hstep]
  | ok r =>
    obtain ⟨_ | item, m⟩ := r
    · rw [bind_run (progress_none.mpr hstep), many, hstep]
      rfl
    · by_cases hsize : m.input.size < c.input.size
      · rw [bind_run (progress_some.mpr ⟨hstep, hsize⟩), many, hstep]
        simp only [if_pos hsize]
        cases hmany : many step m with
        | error e => rw [bind_error hmany]
        | ok r => rw [bind_run hmany]; rfl
      · have hprogress : progress step c = .error m.unexpected := by
          rw [progress, hstep]
          exact if_neg hsize
        rw [bind_error hprogress, many, hstep]
        exact if_neg hsize

namespace Mirrors

variable {e : α → β}

theorem progress {step step' : Parser (Option α)} {d : Cursor}
    (h : Mirrors (Option.map e) step step' d) :
    Mirrors (Option.map e) (Parser.progress step) (Parser.progress step') d := by
  intro hkind y d' hy
  cases y with
  | none =>
    obtain ⟨us, hreads, hmirror⟩ := h hkind none d' (progress_none.mp hy)
    refine ⟨us, hreads, fun c vs hc hvs => ⟨fun m hm hlast => ?_, fun hstuck => ?_⟩⟩
    · obtain ⟨x, hx, hxy⟩ := (hmirror c vs hc hvs).1 m hm hlast
      obtain rfl : x = none := Option.map_eq_none_iff.mp hxy
      exact ⟨none, progress_none.mpr hx, rfl⟩
    · obtain ⟨error, herror⟩ := (hmirror c vs hc hvs).2 hstuck
      exact ⟨error, by rw [Parser.progress, herror]⟩
  | some y =>
    obtain ⟨hy, hsize⟩ := progress_some.mp hy
    obtain ⟨us, hreads, hmirror⟩ := h hkind (Option.some y) d' hy
    refine ⟨us, hreads, fun c vs hc hvs => ⟨fun m hm hlast => ?_, fun hstuck => ?_⟩⟩
    · obtain ⟨x, hx, hxy⟩ := (hmirror c vs hc hvs).1 m hm hlast
      obtain ⟨x, rfl, -⟩ := Option.map_eq_some_iff.mp (hxy.trans (Option.map_some ..))
      refine ⟨Option.some x, progress_some.mpr ⟨hx, ?_⟩, hxy⟩
      -- A token has been read there, so one is read here.
      cases hm with
      | done =>
        obtain rfl : us = [] := by simpa using hvs.symm
        cases hreads
        omega
      | more htake hrest => exact Nat.lt_of_le_of_lt hrest.size_le htake.size_lt
    · obtain ⟨error, herror⟩ := (hmirror c vs hc hvs).2 hstuck
      exact ⟨error, by rw [Parser.progress, herror]⟩

theorem many {step step' : Parser (Option α)} (h : ∀ d, Mirrors (Option.map e) step step' d)
    (d : Cursor) : Mirrors (List.map e) (Parser.many step) (Parser.many step') d := by
  induction hsize : d.input.size using Nat.strongRecOn generalizing d with
  | ind n ih =>
    subst hsize
    rw [many_eq step, many_eq step']
    refine .bind (h d).progress fun x y m hm hxy => ?_
    cases y with
    | none =>
      obtain rfl : x = none := Option.map_eq_none_iff.mp hxy
      exact .pure rfl
    | some y =>
      obtain ⟨x, rfl, hxy'⟩ := Option.map_eq_some_iff.mp (hxy.trans (Option.map_some ..))
      refine .bind (ih _ (progress_some.mp hm).2 m rfl) fun xs ys _ _ hxs => .pure ?_
      rw [List.map_cons, List.map_cons, hxy', hxs]

theorem another {item item' : Parser α} (h : ∀ d, Mirrors e item item' d) (d : Cursor) :
    Mirrors (Option.map e) (Parser.another item) (Parser.another item') d := by
  refine .bind .eat fun x y m _ hxy => ?_
  obtain rfl : x = y := hxy
  exact .ite .rfl (fun _ => (h m).some) fun _ => .pure rfl

theorem separated {item item' : Parser α} (h : ∀ d, Mirrors e item item' d) (d : Cursor) :
    Mirrors (List.map e) (Parser.separated item) (Parser.separated item') d := by
  refine .bind (h d) fun x y m _ hxy => .bind (many (another h) m) fun xs ys _ _ hxs => .pure ?_
  rw [List.map_cons, List.map_cons, hxy, hxs]

theorem inParens {item item' : Parser α} (h : ∀ d, Mirrors e item item' d) (d : Cursor) :
    Mirrors (List.map e) (Parser.inParens item) (Parser.inParens item') d := by
  refine .bind .expect fun _ _ _ _ _ => .bind .eat fun x y m _ hxy => ?_
  obtain rfl : x = y := hxy
  refine .ite .rfl (fun _ => .pure rfl) fun _ => ?_
  exact .bind (separated h m) fun xs ys _ _ hxs => .bind .expect fun _ _ _ _ _ => .pure hxs

end Mirrors
end Parser
end EcmaPress

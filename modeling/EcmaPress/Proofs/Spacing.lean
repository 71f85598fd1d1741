import EcmaPress.Proofs.Contact
import EcmaPress.Proofs.Mirrors

/-!
# Tokens with white space between them

A text of tokens, each behind some white space, is read as these tokens if each of them parts from
what follows it. If one of them cannot be read where it stands, the text is read up to there and no
further. More white space makes no difference to what is read.
-/

namespace EcmaPress

open Piece

/-! ### One token -/

namespace Lexeme

/-- A slash that begins no comment is a sign. -/
theorem scan_slash (more : List Char) : ∃ n, scan ('/' :: more) = .ok (.punct, n) ∧
    (('/' :: more).take n = ['/'] ∨ ('/' :: more).take n = ['/', '=']) := by
  have hfound : (punctuators.find? fun sign => sign.toList.isPrefixOf ('/' :: more)).isSome := by
    rw [List.find?_isSome]
    exact ⟨"/", by decide, by simp⟩
  obtain ⟨sign, hsign⟩ := Option.isSome_iff_exists.mp hfound
  have hpunct : punct ('/' :: more) = some sign.toList.length := by rw [punct, hsign]; rfl
  have hfits : sign.toList <+: '/' :: more := by simpa using List.find?_some hsign
  refine ⟨sign.toList.length, ?_, ?_⟩
  · have hclass : isIdStart '/' = false ∧ Char.isDigit '/' = false := by decide
    simp [scan, hclass, hpunct]
  · rw [← List.prefix_iff_eq_take.mp hfits]
    have hslash : ∀ sign ∈ punctuators, sign.toList.head? = some '/' →
        sign.toList = ['/'] ∨ sign.toList = ['/', '='] := by
      decide
    have hmem := List.mem_of_find?_eq_some hsign
    refine hslash sign hmem ?_
    have hpos : 0 < sign.toList.length :=
      (by decide : ∀ sign ∈ punctuators, 0 < sign.toList.length) sign hmem
    obtain ⟨c, tail, hcons⟩ := List.exists_cons_of_length_pos hpos
    rw [hcons] at hfits ⊢
    rw [(List.cons_prefix_cons.mp hfits).1]
    rfl

end Lexeme

namespace Cursor

theorem exists_next {input : Input} {n m : Nat} {kind : TokenKind}
    (hgap : Lexeme.gap input.chars = .ok n)
    (hscan : Lexeme.scan (input.drop n).chars = .ok (kind, m)) (past : List Token) :
    ∃ d, input.next past = .ok d ∧ d.input = input.drop n ∧
      d.token = (input.drop n).tokenOf kind m ((input.chars.take n).any isLineTerminator) ∧
      d.past = past := by
  refine ⟨⟨(input.drop n).tokenOf kind m ((input.chars.take n).any isLineTerminator),
    input.drop n, ⟨(Lexeme.gap_drop hgap).2, Input.spelled_tokenOf .., .inl ?_⟩, past⟩, ?_, rfl,
    rfl, rfl⟩
  · rw [Input.length_tokenOf (Lexeme.scan_le hscan)]
    exact hscan
  · exact next_eq_ok.mpr ⟨n, kind, m, hgap, hscan, rfl, rfl, rfl⟩

theorem exists_asRegex {c : Cursor} {n : Nat} (h : Lexeme.regex c.input.chars = some n) :
    ∃ r, c.asRegex = .ok r ∧ r.input = c.input ∧
      r.token = c.input.tokenOf .regex n c.token.newlineBefore := by
  refine ⟨⟨c.input.tokenOf .regex n c.token.newlineBefore, c.input, ⟨c.stands.gapless,
    Input.spelled_tokenOf .., .inr ⟨rfl, ?_⟩⟩, c.past⟩, ?_, rfl, rfl⟩
  · rw [Input.length_tokenOf (Lexeme.regex_le h)]
    exact h
  · exact asRegex_eq_ok.mpr ⟨n, h, rfl, rfl, rfl⟩

end Cursor

theorem Input.chars_behind {input : Input} {s : String} {rest : List Char}
    (h : input.chars = s.toList ++ rest) : (input.drop s.length).chars = rest := by
  have hcut : (s.toList ++ rest).drop s.toList.length = rest := List.drop_left
  rwa [String.length_toList, ← h] at hcut

/-- A token where it stands in a text, behind some white space. -/
def Token.behind (t : Token) (pos : Position) (blanks : List Char) : Token :=
  { t with pos := pos.after blanks, newlineBefore := blanks.any isLineTerminator }

section

variable {t : Token} {input : Input} {blanks rest : List Char}

/-- A token that stands in a text is cut out of it. -/
theorem Input.tokenOf_behind (hchars : input.chars = blanks ++ (t.text.toList ++ rest)) :
    (input.drop blanks.length).tokenOf t.kind t.text.length
      ((input.chars.take blanks.length).any isLineTerminator) = t.behind input.pos blanks := by
  have hcut : (t.text.toList ++ rest).take t.text.toList.length = t.text.toList := List.take_left
  have hfront : input.chars.take blanks.length = blanks := by rw [hchars, List.take_left]
  have hback : (input.drop blanks.length).chars = t.text.toList ++ rest := by
    simp [Input.drop, hchars]
  rw [String.length_toList] at hcut
  rw [Input.tokenOf, hback, hcut, String.ofList_toList, Input.drop, hfront]
  rfl

theorem Token.Readable.punct_of_slash (h : t.Readable) (hslash : t.text.toList = ['/']) :
    t.kind = .punct := by
  have hspelled := h.spelled fun hregex => by
    have hge := Lexeme.regex_ge (h.alone.spelled_regex hregex)
    rw [← String.length_toList, hslash] at hge
    simp at hge
  rw [Spelled, hslash] at hspelled
  exact (Prod.mk.inj (Except.ok.inj hspelled)).1.symm

/-- White space in front of a readable token is a gap. -/
theorem Token.Readable.gap (h : t.Readable)
    (hblank : ∀ c ∈ blanks, (isLineTerminator c || isBlank c) = true)
    (hslash : t.text.toList = ['/'] → Lexeme.Ends (fun c => c == '/' || c == '*') rest) :
    Lexeme.gap (blanks ++ (t.text.toList ++ rest)) = .ok blanks.length := by
  refine Lexeme.gap_blanks hblank ?_
  have htake : t.text.toList.take t.text.length = t.text.toList := h.alone.take
  rw [← htake]
  refine Lexeme.gap_take_append h.alone.gapless h.length_pos
    (Nat.le_of_eq (String.length_toList).symm) fun htext => hslash ?_
  rwa [htake] at htext

/-- No gap begins where a readable token does, if what follows it parts from it. -/
theorem Token.Readable.gapless (h : t.Readable) (hparts : Lexeme.Parts t.kind t.text.toList rest) :
    Lexeme.gap (t.text.toList ++ rest) = .ok 0 := by
  have hblank : ∀ c ∈ ([] : List Char), (isLineTerminator c || isBlank c) = true := nofun
  refine h.gap hblank fun hslash => ?_
  rw [h.punct_of_slash hslash] at hparts
  exact hparts.2.2 hslash

/-- A readable token is offered behind a gap if what follows it parts from it. -/
theorem Token.Readable.offers (h : t.Readable)
    (hchars : input.chars = blanks ++ (t.text.toList ++ rest))
    (hgap : Lexeme.gap input.chars = .ok blanks.length)
    (hparts : Lexeme.Parts t.kind t.text.toList rest) (past : List Token) :
    ∃ d r, input.next past = .ok d ∧ d.input = input.drop blanks.length ∧ d.past = past ∧
      d.Offers (t.behind input.pos blanks) r := by
  have htake : t.text.toList.take t.text.length = t.text.toList := h.alone.take
  have hbehind : (input.drop blanks.length).chars = t.text.toList ++ rest := by
    simp [Input.drop, hchars]
  have htoken := Input.tokenOf_behind hchars
  by_cases hkind : t.kind = .regex
  · have hends : Lexeme.Ends isIdPart rest := by rwa [hkind] at hparts
    have hregex := Lexeme.regex_take_append (h.alone.spelled_regex hkind) hends
    rw [htake, ← hbehind] at hregex
    -- The slash in front is read as a sign, and then once more as a regular expression.
    obtain ⟨more, hslash⟩ := List.head?_eq_some_iff.mp (h.slash hkind)
    obtain ⟨n, hscan, hsign⟩ := Lexeme.scan_slash (more ++ rest)
    rw [← List.cons_append, ← hslash, ← hbehind] at hscan hsign
    obtain ⟨d, hd, hinput, hdtoken, hpast⟩ := Cursor.exists_next hgap hscan past
    obtain ⟨r, hr, -, hrtoken⟩ := Cursor.exists_asRegex (c := d) (hinput ▸ hregex)
    have hsame : r.token = t.behind input.pos blanks := by
      rw [hrtoken, hinput, hdtoken, ← htoken, hkind]
      rfl
    refine ⟨d, r, hd, hinput, hpast, hsame ▸ .regex ?_ hr⟩
    rw [hdtoken, isSlash, Bool.or_eq_true, is_iff, is_iff]
    refine hsign.imp (fun hs => ⟨.inl rfl, ?_⟩) fun hs => ⟨.inl rfl, ?_⟩
    all_goals rw [Input.tokenOf, hs]
  · rw [← htake] at hparts
    have hscan := Lexeme.scan_take_append (h.spelled hkind) hparts
    rw [htake, ← hbehind] at hscan
    obtain ⟨d, hd, hinput, hdtoken, hpast⟩ := Cursor.exists_next hgap hscan past
    have hsame : d.token = t.behind input.pos blanks := hdtoken.trans htoken
    refine ⟨d, d, hd, hinput, hpast, ?_⟩
    rw [← hsame]
    refine .plain ?_ ?_
    · rw [hsame]
      exact hkind
    · rw [hsame]
      exact h.notEnd

/-- Behind a readable token the text goes on. -/
theorem Token.Readable.read (h : t.Readable)
    (hchars : input.chars = blanks ++ (t.text.toList ++ rest))
    (hgap : Lexeme.gap input.chars = .ok blanks.length)
    (hparts : Lexeme.Parts t.kind t.text.toList rest) (past : List Token) :
    ∃ d r, input.next past = .ok d ∧ d.Offers (t.behind input.pos blanks) r ∧
      r.next = ((input.drop blanks.length).drop t.text.length).next
        (t.behind input.pos blanks :: past) := by
  obtain ⟨d, r, hd, hinput, hpast, hoffer⟩ := h.offers hchars hgap hparts past
  refine ⟨d, r, hd, hoffer, ?_⟩
  rw [hoffer.next, hinput, hpast]
  rfl

end

/-! ### Texts of tokens -/

/-- A token with the white space in front of it. -/
abbrev Spaced := List Char × Token

/-- A text of spaces and line feeds. -/
def IsWhite (blanks : List Char) : Prop :=
  ∀ c ∈ blanks, c = ' ' ∨ c = '\n'

theorem isWhite_nil : IsWhite [] :=
  fun _ hc => absurd hc List.not_mem_nil

theorem IsWhite.isGap {blanks : List Char} (h : IsWhite blanks) :
    ∀ c ∈ blanks, (isLineTerminator c || isBlank c) = true := by
  intro c hc
  rcases h c hc with rfl | rfl <;> decide

theorem IsWhite.append {blanks more : List Char} (h : IsWhite blanks) (h' : IsWhite more) :
    IsWhite (blanks ++ more) :=
  fun c hc => (List.mem_append.mp hc).elim (h c) (h' c)

/-- The text of tokens with their white space, before another text. -/
def spacedText : List Spaced → List Char → List Char
  | [], rest => rest
  | (blanks, t) :: xs, rest => blanks ++ (t.text.toList ++ spacedText xs rest)

/-- Each token parts from what follows it in the text. -/
def Parted : List Spaced → List Char → Prop
  | [], _ => True
  | (blanks, t) :: xs, rest => IsWhite blanks ∧ t.Readable ∧
    Lexeme.Parts t.kind t.text.toList (spacedText xs rest) ∧ Parted xs rest

/-- Some token cannot be read where it stands, and each one before it parts from what follows. -/
def Halts : List Spaced → List Char → Prop
  | [], _ => False
  | (blanks, t) :: xs, rest =>
    (∀ (input : Input) (past : List Token),
      input.chars = spacedText ((blanks, t) :: xs) rest → ∃ e, input.next past = .error e) ∨
    IsWhite blanks ∧ t.Readable ∧ Lexeme.Parts t.kind t.text.toList (spacedText xs rest) ∧
      Halts xs rest

/-- The tokens of a text that begins at a place. -/
def spacedTokens (pos : Position) : List Spaced → List Token
  | [] => []
  | (blanks, t) :: xs =>
    t.behind pos blanks :: spacedTokens ((pos.after blanks).after t.text.toList) xs

variable {xs ys : List Spaced} {rest : List Char}

theorem spacedText_append :
    spacedText (xs ++ ys) rest = spacedText xs (spacedText ys rest) := by
  induction xs with
  | nil => rfl
  | cons x xs ih => simp only [List.cons_append, spacedText, ih]

theorem spacedText_before (more : List Char) :
    spacedText xs (rest ++ more) = spacedText xs rest ++ more := by
  induction xs with
  | nil => rfl
  | cons x xs ih => simp only [spacedText, ih, List.append_assoc]

theorem parted_append :
    Parted (xs ++ ys) rest ↔ Parted xs (spacedText ys rest) ∧ Parted ys rest := by
  induction xs with
  | nil => simp [Parted]
  | cons x xs ih => simp only [List.cons_append, Parted, spacedText_append, ih, and_assoc]

/-- A text halts if its front does. -/
theorem Halts.append_left (h : Halts xs (spacedText ys rest)) : Halts (xs ++ ys) rest := by
  induction xs with
  | nil => exact h.elim
  | cons x xs ih =>
    simp only [List.cons_append, Halts, spacedText, spacedText_append] at h ⊢
    exact h.imp_right fun ⟨hblank, hread, hparts, hrest⟩ => ⟨hblank, hread, hparts, ih hrest⟩

/-- A text halts where the text behind its front does. -/
theorem Halts.append_right (hfront : Parted xs (spacedText ys rest)) (h : Halts ys rest) :
    Halts (xs ++ ys) rest := by
  induction xs with
  | nil => exact h
  | cons x xs ih =>
    obtain ⟨hblank, hread, hparts, hrest⟩ := hfront
    refine .inr ⟨hblank, hread, ?_, ih hrest⟩
    change Lexeme.Parts _ _ (spacedText (xs ++ ys) rest)
    rwa [spacedText_append]

theorem spacedTokens_append (pos : Position) :
    ∃ pos', spacedTokens pos (xs ++ ys) = spacedTokens pos xs ++ spacedTokens pos' ys := by
  induction xs generalizing pos with
  | nil => exact ⟨pos, rfl⟩
  | cons x xs ih =>
    obtain ⟨pos', h⟩ := ih ((pos.after x.1).after x.2.text.toList)
    exact ⟨pos', congrArg (x.2.behind pos x.1 :: ·) h⟩

theorem text_spacedTokens (pos : Position) :
    (spacedTokens pos xs).map Token.text = xs.map fun x => x.2.text := by
  induction xs generalizing pos with
  | nil => rfl
  | cons x xs ih =>
    simp only [spacedTokens, List.map_cons]
    rw [ih]
    rfl

/-! ### Reading them -/

namespace Cursor

/-- Tokens are taken one after the other from what an input begins with, and then there is what the
rest of the input begins with. -/
inductive Arrives : Except SyntaxError Cursor → List Token → Except SyntaxError Cursor → Prop
  | done {start : Except SyntaxError Cursor} : Arrives start [] start
  | more {c r : Cursor} {t : Token} {ts : List Token} {finish : Except SyntaxError Cursor} :
      c.Offers t r → Arrives r.next ts finish → Arrives (.ok c) (t :: ts) finish

theorem Arrives.reads {start : Except SyntaxError Cursor} {ts : List Token} {d' : Cursor}
    (h : Arrives start ts (.ok d')) : ∃ d, start = .ok d ∧ d.Reads ts d' := by
  generalize hfinish : Except.ok d' = finish at h
  induction h with
  | done => exact ⟨d', hfinish.symm, .done⟩
  | @more c r t ts _ hoffer _ ih =>
    obtain ⟨m, hm, hreads⟩ := ih hfinish
    exact ⟨c, rfl, .more (takes_iff.mpr ⟨r, hoffer, hm⟩) hreads⟩

end Cursor

section

variable {blanks : List Char} {t : Token} {input : Input}

/-- In front of the first token stands its white space and nothing else. -/
theorem gap_spaced (hblank : IsWhite blanks) (hread : t.Readable)
    (hparts : Lexeme.Parts t.kind t.text.toList (spacedText xs rest)) :
    Lexeme.gap (spacedText ((blanks, t) :: xs) rest) = .ok blanks.length :=
  Lexeme.gap_blanks hblank.isGap (hread.gapless hparts)

/-- Behind the first token stands the text of the other ones. -/
theorem chars_behind_spaced (hchars : input.chars = spacedText ((blanks, t) :: xs) rest) :
    ((input.drop blanks.length).drop t.text.length).chars = spacedText xs rest := by
  rw [spacedText] at hchars
  exact Input.chars_behind (by simp [Input.drop, hchars])

theorem pos_behind_spaced (hchars : input.chars = spacedText ((blanks, t) :: xs) rest) :
    ((input.drop blanks.length).drop t.text.length).pos =
      (input.pos.after blanks).after t.text.toList := by
  rw [spacedText] at hchars
  have hcut : (t.text.toList ++ spacedText xs rest).take t.text.toList.length = t.text.toList :=
    List.take_left
  rw [String.length_toList] at hcut
  simp [Input.drop, hchars, hcut]

end

/-- Tokens that part are read one after the other, and the rest of the text is left. -/
theorem Parted.arrives (h : Parted xs rest) {input : Input}
    (hchars : input.chars = spacedText xs rest) (past : List Token) :
    ∃ (behind : Input) (past' : List Token), behind.chars = rest ∧
      Cursor.Arrives (input.next past) (spacedTokens input.pos xs) (behind.next past') := by
  induction xs generalizing input past with
  | nil => exact ⟨input, past, hchars, .done⟩
  | cons x xs ih =>
    obtain ⟨blanks, t⟩ := x
    obtain ⟨hblank, hread, hparts, hrest⟩ := h
    have hgap := hchars ▸ gap_spaced hblank hread hparts
    obtain ⟨d, r, hd, hoffer, hnext⟩ := hread.read hchars hgap hparts past
    obtain ⟨behind, past', hchars', harrives⟩ :=
      ih hrest (chars_behind_spaced hchars) (t.behind input.pos blanks :: past)
    rw [← hnext, pos_behind_spaced hchars] at harrives
    rw [hd]
    exact ⟨behind, past', hchars', .more hoffer harrives⟩

/-- A text that halts cannot be read to its end. -/
theorem Halts.stuck (h : Halts xs rest) {input : Input} (hchars : input.chars = spacedText xs rest)
    (past : List Token) : (∃ e, input.next past = .error e) ∨
      ∃ c, input.next past = .ok c ∧ c.Stuck (spacedTokens input.pos xs) := by
  induction xs generalizing input past with
  | nil => exact h.elim
  | cons x xs ih =>
    obtain ⟨blanks, t⟩ := x
    rcases h with herror | ⟨hblank, hread, hparts, hrest⟩
    · exact .inl (herror input past hchars)
    have hgap := hchars ▸ gap_spaced hblank hread hparts
    obtain ⟨d, r, hd, hoffer, hnext⟩ := hread.read hchars hgap hparts past
    refine .inr ⟨d, hd, ?_⟩
    rcases ih hrest (chars_behind_spaced hchars) (t.behind input.pos blanks :: past) with
      ⟨e, herror⟩ | ⟨m, hm, hstuck⟩
    · exact .here hoffer (hnext.trans herror)
    · rw [pos_behind_spaced hchars] at hstuck
      exact .more (Cursor.takes_iff.mpr ⟨r, hoffer, hnext.trans hm⟩) hstuck

/-! ### Texts read to an end -/

/-- What is told of every cursor that reads a text behind white space. -/
def Input.Shows (text : List Char) (holds : Cursor → Prop) : Prop :=
  ∀ (input : Input) (blanks : List Char) (past : List Token), input.chars = blanks ++ text →
    (∀ c ∈ blanks, c = ' ' ∨ c = '\n') → ∃ d, input.next past = .ok d ∧ holds d

/-- Where all that is left is a gap, there is nothing but the end of the text. -/
theorem Input.next_end {input : Input} (hgap : Lexeme.gap input.chars = .ok input.chars.length)
    (past : List Token) : ∃ d, input.next past = .ok d ∧ d.token.isEnd = true := by
  have hscan : Lexeme.scan (input.drop input.chars.length).chars = .ok (.endOfText, 0) := by
    simp [Input.drop, Lexeme.scan]
  obtain ⟨d, hd, -, htoken, -⟩ := Cursor.exists_next hgap hscan past
  have hend : d.token.isEnd = true := by rw [htoken]; rfl
  exact ⟨d, hd, hend⟩

/-- Behind white space there is nothing but the end of a text. -/
theorem Input.shows_end : Input.Shows [] fun d => d.token.isEnd = true := by
  intro input blanks past hchars hblank
  have hempty : Lexeme.gap [] = .ok 0 := by rw [Lexeme.gap]
  have hgap := Lexeme.gap_blanks (IsWhite.isGap hblank) hempty
  rw [List.append_nil] at hchars hgap
  exact Input.next_end (hchars ▸ hgap) past

/-- Tokens that part are read to the end of the text, if there is nothing else behind them. -/
theorem Parted.reads_end {last tail : List Char} (h : Parted xs (last ++ tail)) (hlast : IsWhite last)
    (htail : Input.Shows tail fun d => d.token.isEnd = true) {input : Input}
    (hchars : input.chars = spacedText xs (last ++ tail)) (past : List Token) :
    ∃ d d', input.next past = .ok d ∧ d.Reads (spacedTokens input.pos xs) d' ∧
      d'.token.isEnd = true := by
  obtain ⟨behind, past', hbehind, harrives⟩ := h.arrives hchars past
  obtain ⟨d', hd', hend⟩ := htail behind last past' hbehind hlast
  rw [hd'] at harrives
  obtain ⟨d, hd, hreads⟩ := harrives.reads
  exact ⟨d, d', hd, hreads, hend⟩

/-! ### More white space -/

/-- Tokens with one more space in front of each. -/
def loosened (xs : List Spaced) : List Spaced :=
  xs.map fun x => (' ' :: x.1, x.2)

theorem unplaced_loosened (pos pos' : Position) :
    (spacedTokens pos (loosened xs)).map Token.unplaced =
      (spacedTokens pos' xs).map Token.unplaced := by
  induction xs generalizing pos pos' with
  | nil => rfl
  | cons x xs ih =>
    simp only [loosened, List.map_cons, spacedTokens]
    rw [← loosened, ih]
    rfl

/-- With a space in front of each token, and before what follows them, all of them part. -/
theorem parted_loosened (h : ∀ x ∈ xs, IsWhite x.1 ∧ x.2.Readable)
    (hrest : rest = [] ∨ ∃ c more, rest = c :: more ∧ (c = ' ' ∨ c = '\n')) :
    Parted (loosened xs) rest := by
  induction xs with
  | nil => trivial
  | cons x xs ih =>
    obtain ⟨hblank, hread⟩ := h x (List.mem_cons_self ..)
    refine ⟨fun c hc => ?_, hread, ?_, ih fun y hy => h y (List.mem_cons_of_mem _ hy)⟩
    · exact (List.mem_cons.mp hc).elim .inl (hblank c)
    · cases xs with
      | cons y ys => exact hread.parts_separator (.inl rfl) _
      | nil =>
        rcases hrest with rfl | ⟨c, more, rfl, hc⟩
        · exact Lexeme.parts_nil
        · exact hread.parts_separator (hc.imp_right .inl) more

end EcmaPress

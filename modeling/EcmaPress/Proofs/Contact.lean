import EcmaPress.Proofs.Endings
import EcmaPress.Proofs.Marks
import EcmaPress.Proofs.Spelling

/-!
# Tokens that touch

Behind a token on a page stands white space, or another token without a space before it. In the
second case the page has found that none is needed, and the pieces have promised what the page
does not look for. Together this is all that a reader needs to tell the two tokens apart.
-/

namespace EcmaPress

/-! ### Tokens that can be read back -/

/-- A token that is read from its own spelling, with nothing before or behind it. -/
structure Token.Readable (token : Token) : Prop where
  alone : token.StandsAt token.text.toList
  notEnd : token.isEnd = false
  slash : token.kind = .regex → token.text.toList.head? = some '/'

namespace Token.Readable

variable {t : Token}

theorem spelled (h : t.Readable) (hkind : t.kind ≠ .regex) : t.Spelled :=
  h.alone.spelled_scan hkind

theorem length_pos (h : t.Readable) : 0 < t.text.length :=
  h.alone.length_pos h.notEnd

theorem cons (h : t.Readable) : ∃ first more, t.text.toList = first :: more := by
  refine List.exists_cons_of_length_pos ?_
  rw [String.length_toList]
  exact h.length_pos

end Token.Readable

/-- A token that stands at the front of a text can be read from its spelling. -/
theorem Token.StandsAt.alone {t : Token} {text : List Char} (h : t.StandsAt text)
    (hend : t.isEnd = false) : t.StandsAt t.text.toList := by
  refine ⟨?_, List.prefix_rfl, ?_⟩
  · rw [← h.take, ← List.append_nil (text.take t.text.length)]
    refine Lexeme.gap_take_append h.gapless (h.length_pos hend) ?_ fun _ => Lexeme.ends_nil _
    rw [← String.length_toList]
    exact h.spelled.length_le
  · by_cases hkind : t.kind = .regex
    · exact .inr ⟨hkind, h.spelled_regex hkind⟩
    · exact .inl (h.spelled_scan hkind)

theorem Cursor.Takes.readable {c m : Cursor} {t : Token} (h : c.Takes t m) : t.Readable := by
  cases h with
  | plain hkind hend _ => exact ⟨c.stands.alone hend, hend, fun h => absurd h hkind⟩
  | @regex r _ hslash hr _ =>
    obtain ⟨n, -, htoken, hinput, -⟩ := Cursor.asRegex_eq_ok.mp hr
    have hend : r.token.isEnd = false := by rw [htoken]; rfl
    refine ⟨r.stands.alone hend, hend, fun _ => ?_⟩
    obtain ⟨rest, hrest⟩ := c.stands.spelled
    have hfront : c.input.chars.head? = some '/' := by
      rw [← hrest]
      rcases (Token.isSlash_text hslash).2 with htext | htext <;> rw [htext] <;> rfl
    obtain ⟨first, more, hcons⟩ := List.exists_cons_of_length_pos
      (by rw [String.length_toList]; exact r.stands.length_pos hend : 0 < r.token.text.toList.length)
    have hprefix := r.stands.spelled
    rw [hcons, hinput] at hprefix
    obtain ⟨tail, htail⟩ := hprefix
    rw [← htail] at hfront
    rw [hcons]
    exact hfront

namespace Piece

/-- Every text that is written can be read back as a token of the piece that writes it. -/
def Legible (w : Wording) (ps : List Piece) : Prop :=
  ∀ p ∈ ps, ∀ s, p.text w = some s → ∃ t : Token, t.Readable ∧ t.text = s ∧ p.Admits t

/-- Whether a token has the looks of a piece. It may be a keyword where the piece is a name. -/
def Allows (token : Token) (piece : Piece) : Prop :=
  (piece.shape = .regex ↔ token.kind = .regex) ∧ ∀ id, piece = .name id → token.kind = .name

/-- Every text that is written is a token with the looks of its piece. -/
def Lexical (w : Wording) (ps : List Piece) : Prop :=
  ∀ p ∈ ps, ∀ s, p.text w = some s → ∃ t : Token, t.Readable ∧ t.text = s ∧ p.Allows t

theorem Admits.allows {t : Token} {p : Piece} (h : p.Admits t) : p.Allows t := by
  cases p with
  | token => exact ⟨h, nofun⟩
  | name =>
    have hkind := (Token.isIdentifier_iff.mp h).1
    exact ⟨by simp [Piece.shape, hkind], fun _ _ => hkind⟩
  | terminator =>
    have hkind : t.kind ≠ .regex := h
    exact ⟨by simp [Piece.shape, hkind], nofun⟩
  | _ => cases h

/-- What may be read for a piece is what any other token of its looks and spelling is read for. -/
theorem Admits.congr {t u : Token} {p : Piece} (h : p.Admits t) (ht : t.Readable)
    (hu : u.Readable) (hallows : p.Allows u) (htext : u.text = t.text) : p.Admits u := by
  have hkind : u.kind = t.kind := by
    have hregex := hallows.1.symm.trans h.allows.1
    by_cases hr : t.kind = .regex
    · rw [hregex.mpr hr, hr]
    · exact (hu.spelled fun hu => hr (hregex.mp hu)).kind_congr (ht.spelled hr) htext
  cases p with
  | name =>
    have hid : t.isIdentifier = true := h
    simpa only [Admits, Token.isIdentifier, hkind, htext] using hid
  | token | terminator => simpa only [Admits, hkind] using h
  | _ => exact h

theorem Legible.lexical {w : Wording} {ps : List Piece} (h : Legible w ps) : Lexical w ps := by
  intro p hp s hs
  obtain ⟨t, hread, htext, hadmits⟩ := h p hp s hs
  exact ⟨t, hread, htext, hadmits.allows⟩

/-- A semicolon can be read back. -/
theorem readable_semicolon : (⟨.punct, ";", .start, false⟩ : Token).Readable := by
  refine ⟨⟨?_, List.prefix_rfl, .inl rfl⟩, rfl, by decide⟩
  exact Lexeme.gap_eq_zero.mpr ⟨by decide, by simp⟩

end Piece

open Piece

/-- The tokens of a text can be read back where its pieces keep the names. -/
theorem Aligned.legible {ts : List Token} {ps : List Piece} (h : Aligned ts ps)
    (hread : ∀ t ∈ ts, t.Readable) {w : Wording} (hname : ∀ id, w.name id = id.name) :
    Legible w ps := by
  have hsemicolon : ∀ last, ∀ s, (Piece.terminator last).text w = some s →
      ∃ t : Token, t.Readable ∧ t.text = s ∧ (Piece.terminator last).Admits t := by
    intro last s hs
    obtain ⟨-, rfl⟩ := text_terminator_eq_some.mp hs
    exact ⟨_, readable_semicolon, rfl, by simp [Admits]⟩
  induction h with
  | nil => exact fun p hp => absurd hp List.not_mem_nil
  | @written t ts p ps hfits _ _ _ ih =>
    intro q hq s hs
    rcases List.mem_cons.mp hq with rfl | hq
    · rcases text_of_original hname hfits.1 with htext | ⟨hsilent, -⟩
      · exact ⟨t, hread t (List.mem_cons_self ..), Option.some.inj (htext.symm.trans hs), hfits.2⟩
      · rw [hsilent] at hs
        cases hs
    · exact ih (fun u hu => hread u (List.mem_cons_of_mem _ hu)) q hq s hs
  | layout hp _ ih =>
    intro q hq s hs
    rcases List.mem_cons.mp hq with rfl | hq
    · rw [text_layout hp] at hs
      cases hs
    · exact ih hread q hq s hs
  | inserted _ ih =>
    intro q hq s hs
    rcases List.mem_cons.mp hq with rfl | hq
    · exact hsemicolon _ s hs
    · exact ih hread q hq s hs
  | trailing _ _ _ ih => exact ih fun u hu => hread u (List.mem_cons_of_mem _ hu)

theorem Cursor.Reads.readable {c c' : Cursor} {ts : List Token} (h : c.Reads ts c') :
    ∀ t ∈ ts, t.Readable := by
  induction h with
  | done => exact fun t ht => nomatch ht
  | more htake _ ih =>
    intro t ht
    rcases List.mem_cons.mp ht with rfl | ht
    · exact htake.readable
    · exact ih t ht

/-! ### What follows a token on a page -/

/-- What a token and its page promise of a token that follows without a space. -/
structure Touches (text : String) (shape : Shape) (first : Char) : Prop where
  operand : isOperator text = true → !(['=', '<', '>', '&', '|', ';'].contains first)
  member : text = "." → first.isDigit = false
  word : endsInPoint text = true → Page.isWordChar first = false
  point : isDigits text = true → shape = .plain → first ≠ '.'

/-- Whether no number that ends in a point is written directly before a word. -/
def apart : List String → Bool
  | text :: next :: rest => !(endsInPoint text && beginsWord next) && apart (next :: rest)
  | _ => true

theorem apart_cons {text : String} {rest : List String} (h : apart (text :: rest) = true) :
    (endsInPoint text = true → ∀ next ∈ rest.head?, beginsWord next = false) ∧
      apart rest = true := by
  cases rest with
  | nil => exact ⟨fun _ _ hnext => (nomatch hnext), rfl⟩
  | cons next rest =>
    simp only [apart, Bool.and_eq_true, Bool.not_eq_true', Bool.and_eq_false_imp] at h
    refine ⟨fun hends next' hnext => ?_, h.2⟩
    obtain rfl : next = next' := by simpa using hnext
    exact h.1 hends

/-- What is written behind a token: nothing, white space, or the next token, which needs no
space. -/
inductive Onward (style : Style) (w : Wording) (page : Page) (spaced : Bool) (ps : List Piece) :
    List Char → Prop
  | done : Onward style w page spaced ps []
  | blank {c : Char} {rest : List Char} : c = ' ' ∨ c = '\n' →
      Onward style w page spaced ps (c :: rest)
  | touching {spaced' : Bool} {q : Piece} {s : String} {first : Char} {more rest : List Char} :
      ahead style.dropSemicolons spaced ps = some (spaced', q) → q.text w = some s →
      s.toList = first :: more → q ∈ ps → (texts w ps).head? = some s →
      page.needsSpace first = false →
      (style.indent.isSome = true → spaced' = spaced) →
      Onward style w page spaced ps (first :: rest)

/-- Over a piece that leaves no mark, space is needed or not just as before. -/
theorem Onward.silent {style : Style} {w : Wording} {page page' : Page} {spaced spaced' : Bool}
    {p : Piece} {ps : List Piece} {text : List Char} (h : Onward style w page' spaced' ps text)
    (hs : p.text w = none) (halike : page.Alike page')
    (hahead : ahead style.dropSemicolons spaced (p :: ps) = ahead style.dropSemicolons spaced' ps)
    (hspaced : style.indent.isSome = true → spaced' = spaced) :
    Onward style w page spaced (p :: ps) text := by
  cases h with
  | done => exact .done
  | blank hc => exact .blank hc
  | touching hq htext hcons hmem hhead hneeds hindent =>
    refine .touching (hahead.trans hq) htext hcons (List.mem_cons_of_mem _ hmem) ?_ ?_ ?_
    · rw [texts_silent hs, hhead]
    · rw [halike.needsSpace, hneeds]
    · exact fun hsome => (hindent hsome).trans (hspaced hsome)

/-- A piece that writes a text is what comes next. -/
theorem Piece.ahead_written {w : Wording} {p : Piece} {s : String} (hs : p.text w = some s)
    (spaced : Bool) (ps : List Piece) : ahead w.drop spaced (p :: ps) = some (spaced, p) := by
  cases p with
  | token | name => rfl
  | terminator last =>
    obtain ⟨hdrop, -⟩ := text_terminator_eq_some.mp hs
    simp [ahead, hdrop]
  | _ => cases hs

namespace Page

variable (style : Style) (renames : Renames)

theorem lead_of_started {style : Style} {page : Page} (hline : page.lineStart = false) (first : Char) :
    page.lead style first = if page.needsSpace first then [' '] else [] := by
  have hbegin : page.beginLine style = page := by simp [beginLine, hline]
  simp [lead, hbegin, hline]

/-- Behind a token the marks of further pieces go on without a need for space. -/
theorem onward (page : Page) (hline : page.lineStart = false) (spaced : Bool) (ps : List Piece)
    (hwritten : ∀ p ∈ ps, ∀ s, p.text (.ofStyle style renames) = some s → s.toList ≠ []) :
    Onward style (.ofStyle style renames) page spaced ps (page.allMarks style renames ps) := by
  -- The induction walks over pieces that leave no mark. They may change the depth of the page,
  -- on which no space depends.
  induction ps generalizing page spaced with
  | nil => exact .done
  | cons p ps ih =>
    rw [allMarks]
    cases hs : p.text (.ofStyle style renames) with
    | some s =>
      obtain ⟨first, more, hcons⟩ := List.exists_cons_of_ne_nil
        (hwritten p (List.mem_cons_self ..) s hs)
      simp only [marks, hs, hcons, tokenMarks, lead_of_started hline]
      cases hspace : page.needsSpace first with
      | true => exact .blank (.inl rfl)
      | false =>
        exact .touching (ahead_written hs spaced ps) hs hcons (List.mem_cons_self ..)
          (by rw [texts_written hs]; rfl) hspace fun _ => rfl
    | none =>
      have hrest (spaced' : Bool) (hmarks : page.marks style renames p = [])
          (halike : page.Alike (page.set style renames p))
          (hahead : ahead style.dropSemicolons spaced (p :: ps) =
            ahead style.dropSemicolons spaced' ps)
          (hspaced : style.indent.isSome = true → spaced' = spaced) :
          Onward style (.ofStyle style renames) page spaced (p :: ps)
            (page.marks style renames p ++ (page.set style renames p).allMarks style renames ps) := by
        rw [hmarks, List.nil_append]
        exact (ih _ (halike.lineStart ▸ hline) spaced' fun q hq =>
          hwritten q (List.mem_cons_of_mem _ hq)).silent hs halike hahead hspaced
      cases p with
      | token | name => cases hs
      | terminator last =>
        have hdrop : (last && style.dropSemicolons) = true := text_terminator_eq_none.mp hs
        refine hrest spaced ?_ ?_ ?_ fun _ => rfl
        · simp [marks, hs]
        · simp only [set, if_pos hdrop]
          exact ⟨rfl, rfl, rfl⟩
        · simp only [ahead, if_pos hdrop]
      | space =>
        cases hindent : style.indent with
        | none =>
          refine hrest true ?_ ?_ rfl ?_
          · simp [marks, hs, hindent]
          · simp only [set, hindent]
            exact ⟨rfl, rfl, rfl⟩
          · simp [hindent]
        | some indent =>
          simp only [marks, hs, hindent]
          exact .blank (.inl rfl)
      | newline =>
        cases hindent : style.indent with
        | none =>
          refine hrest true ?_ ?_ rfl ?_
          · simp [marks, hs, hindent]
          · simp only [set, hindent]
            exact ⟨rfl, rfl, rfl⟩
          · simp [hindent]
        | some indent =>
          simp only [marks, hs, hindent]
          exact .blank (.inr rfl)
      | indent | dedent => exact hrest spaced (by simp [marks, hs]) ⟨rfl, rfl, rfl⟩ rfl fun _ => rfl

end Page

/-! ### Two tokens side by side -/

theorem passes_text {w : Wording} {p : String → Bool} {q : Piece} {s : String}
    (hname : ∀ id, q = .name id → p s = true) (htext : q.text w = some s)
    (h : q.passes p = true) : p s = true := by
  cases q with
  | token text origin shape =>
    obtain rfl : text = s := Option.some.inj htext
    exact h
  | name id => exact hname id rfl
  | _ => cases h

theorem text_passes {w : Wording} {p : String → Bool} {q : Piece} {s : String}
    (hsemicolon : p ";" = false) (htext : q.text w = some s) (h : q.passes p = false) :
    p s = false := by
  cases q with
  | token text origin shape =>
    obtain rfl : text = s := Option.some.inj htext
    exact h
  | name id => cases h
  | terminator last =>
    obtain ⟨-, rfl⟩ := text_terminator_eq_some.mp htext
    exact hsemicolon
  | _ => cases htext

/-- An identifier begins like an operand, and with no digit. -/
theorem Token.Readable.ofName {t : Token} (h : t.Readable) (hkind : t.kind = .name) :
    beginsOperand t.text = true ∧ t.text.toList.head?.any Char.isDigit = false := by
  have hspelled := h.spelled (by simp [hkind])
  refine ⟨hspelled.beginsOperand (by simp [hkind]) h.notEnd, ?_⟩
  obtain ⟨first, more, hcons⟩ := h.cons
  rw [hcons, List.head?_cons, Option.any_some, Bool.eq_false_iff]
  intro hdigit
  rw [Spelled, hcons] at hspelled
  have hnumber := Lexeme.scan_digit hspelled hdigit
  rw [hkind] at hnumber
  cases hnumber

/-- The promises of a piece about the next one hold for the first character of its text. -/
theorem Piece.Link.touches {w : Wording} {text : String} {shape : Shape} {spaced : Bool}
    {q : Piece} {s : String} {first : Char} {more : List Char}
    (h : Link text shape (some (spaced, q))) (htext : q.text w = some s)
    (hlexical : ∃ t : Token, t.Readable ∧ t.text = s ∧ q.Allows t) (hcons : s.toList = first :: more)
    (hword : endsInPoint text = true → spaced = true → beginsWord s = false) :
    Touches text shape first := by
  have hname : ∀ id, q = .name id →
      beginsOperand s = true ∧ s.toList.head?.any Char.isDigit = false := by
    rintro id rfl
    obtain ⟨t, hread, rfl, -, hname⟩ := hlexical
    exact hread.ofName (hname id rfl)
  have hhead (test : Char → Bool) : s.toList.head?.any test = test first := by
    rw [hcons, List.head?_cons, Option.any_some]
  constructor
  · intro hop
    have hpasses := passes_text (fun id hid => (hname id hid).1) htext (h.operand hop)
    rwa [beginsOperand, hhead] at hpasses
  · intro hpoint
    have hpasses := passes_text (p := fun s => !s.toList.head?.any Char.isDigit)
      (fun id hid => by simp [(hname id hid).2]) htext (h.member hpoint)
    simpa [hhead] using hpasses
  · intro hends
    have hfree := h.word hends
    rw [← hhead Page.isWordChar]
    cases spaced with
    | true => exact hword hends rfl
    | false => exact text_passes (p := beginsWord) (by decide) htext (by simpa [isCalm] using hfree)
  · intro hdigits hshape hfirst
    have hpasses := text_passes (p := fun s => s.toList.head? == some '.') (by decide) htext
      (by simpa using h.point hdigits hshape)
    simp [hcons, hfirst] at hpasses

namespace Lexeme

/-- White space parts any token from what follows, and so does a semicolon. -/
theorem parts_separator {kind : TokenKind} {token rest : List Char} {c : Char}
    (hkind : kind ≠ .endOfText) (htoken : token ≠ []) (hc : c = ' ' ∨ c = '\n' ∨ c = ';') :
    Parts kind token (c :: rest) := by
  have hclass : Page.isWordChar c = false ∧ c ≠ '.' ∧ c.isDigit = false ∧
      (c == '/' || c == '*') = false ∧ isIdPart c = false ∧
      ∀ sign ∈ punctuators, c ∉ sign.toList.drop 1 := by
    rcases hc with rfl | rfl | rfl <;> decide
  obtain ⟨hword, hpoint, hdigit, hslash, hpart, hsign⟩ := hclass
  cases kind with
  | name => exact ends_cons.mpr hword
  | number => exact ⟨ends_cons.mpr hword, fun _ => ends_cons.mpr (by simpa using hpoint)⟩
  | string => trivial
  | punct =>
    refine ⟨fun longer hmem hfits => ?_, fun _ => ends_cons.mpr hdigit,
      fun _ => ends_cons.mpr hslash⟩
    rw [← Nat.not_lt]
    intro hlong
    refine hsign longer hmem ?_
    obtain ⟨tail, htail⟩ := hfits
    obtain ⟨n, hn⟩ := Nat.exists_eq_add_one_of_ne_zero (Nat.ne_of_gt (List.length_pos_iff.mpr htoken))
    have hget : (token ++ c :: rest)[token.length]? = some c := by simp
    rw [← htail, List.getElem?_append_left hlong, hn, Nat.add_comm, ← List.getElem?_drop] at hget
    exact List.mem_of_getElem? hget
  | regex => exact ends_cons.mpr hpart
  | endOfText => exact absurd rfl hkind

/-- Behind the front part of a sign stands one of few characters. -/
theorem punctuators_inner {sign : String} (hsign : sign ∈ punctuators) {n : Nat} (hpos : 0 < n)
    {c : Char} (hc : sign.toList[n]? = some c) :
    ['=', '<', '>', '&', '|', ';'].contains c = true ∨
      (sign.toList.take n = ['+'] ∧ c = '+') ∨ (sign.toList.take n = ['-'] ∧ c = '-') := by
  have hall : ∀ sign ∈ punctuators, ∀ n < 4, 0 < n → sign.toList[n]?.all (fun c =>
      ['=', '<', '>', '&', '|', ';'].contains c || (sign.toList.take n == ['+'] && c == '+') ||
        (sign.toList.take n == ['-'] && c == '-')) = true := by
    decide
  have hlen : sign.toList.length ≤ 4 :=
    (by decide : ∀ sign ∈ punctuators, sign.toList.length ≤ 4) sign hsign
  obtain ⟨hn, -⟩ := List.getElem?_eq_some_iff.mp hc
  have hcase := hall sign hsign n (by omega) hpos
  rw [hc, Option.all_some] at hcase
  simpa [or_assoc] using hcase

end Lexeme

/-- A list that goes on further than the front of another one has this front, and then what is
behind it. -/
theorem take_of_prefix_longer {front longer rest : List Char} {first : Char}
    (hfits : longer <+: front ++ first :: rest) (hlong : front.length < longer.length) :
    longer.take front.length = front ∧ longer[front.length]? = some first := by
  obtain ⟨tail, htail⟩ := hfits
  constructor
  · rw [← List.take_append_of_le_length (Nat.le_of_lt hlong), htail, List.take_left]
  · rw [← List.getElem?_append_left hlong, htail]
    simp

theorem Token.Readable.parts_separator {t : Token} (h : t.Readable) {c : Char}
    (hc : c = ' ' ∨ c = '\n' ∨ c = ';') (rest : List Char) :
    Lexeme.Parts t.kind t.text.toList (c :: rest) := by
  obtain ⟨_, _, hcons⟩ := h.cons
  refine Lexeme.parts_separator ?_ (by simp [hcons]) hc
  simpa [Token.isEnd] using h.notEnd

/-- What characters may meet without a space, behind a token of some shape. -/
structure Page.Joins (shape : Shape) (last first : Char) : Prop where
  word : isWordChar last = true → isWordChar first = false
  regex : shape = .regex → isWordChar first = false
  integer : shape = .integer → first ≠ '.'
  plus : last = '+' → first ≠ '+'
  minus : last = '-' → first ≠ '-'
  slash : last = '/' → (first == '/' || first == '*') = false

theorem Page.joins_of_needsSpace {page : Page} {last first : Char} {before : List Char}
    (hwritten : page.written = last :: before) (h : page.needsSpace first = false) :
    Joins page.shape last first := by
  simp only [needsSpace, hwritten, Bool.or_eq_false_iff] at h
  obtain ⟨⟨⟨⟨⟨⟨⟨hword, hregex⟩, hinteger⟩, hplus⟩, hminus⟩, hslash⟩, -⟩, -⟩ := h
  constructor
  · intro hlast
    simpa [hlast] using hword
  · intro hshape
    simpa [hshape] using hregex
  · intro hshape
    simpa [hshape] using hinteger
  · rintro rfl
    simpa using hplus
  · rintro rfl
    simpa using hminus
  · rintro rfl
    simpa using hslash

namespace Token.Readable

variable {t : Token} {shape : Shape} {last first : Char}

/-- A number does not run into what it meets without a space. -/
theorem endsNumber (h : t.Readable) (hkind : t.kind = .number)
    (hlast : t.text.toList.getLast? = some last) (hshape : shape ≠ .regex)
    (hjoins : Page.Joins shape last first) (htouches : Touches t.text shape first)
    (rest : List Char) : Lexeme.EndsNumber t.text.toList (first :: rest) := by
  refine ⟨Lexeme.ends_cons.mpr ?_, fun hdigits => Lexeme.ends_cons.mpr ?_⟩
  · by_cases hword : Page.isWordChar last = true
    · exact hjoins.word hword
    · refine htouches.word ?_
      have hpoint : last = '.' := by
        have hends := h.alone.ends hlast
        rw [hkind] at hends
        simpa [TokenKind.ends, Lexeme.endsNumeral, hword] using hends
      subst hpoint
      simp only [endsInPoint, hlast, beq_self_eq_true, Bool.true_and, bne_iff_ne]
      intro htext
      have hspelled := (h.spelled (by simp [hkind])).kindOf
      rw [htext, hkind] at hspelled
      exact absurd hspelled (by decide)
  · rw [beq_eq_false_iff_ne]
    have hisDigits : isDigits t.text = true := by
      have hne : t.text ≠ "" := by
        intro hempty
        simp [hempty] at hlast
      simp [isDigits, hne, hdigits]
    cases shape with
    | plain => exact htouches.point hisDigits rfl
    | integer => exact hjoins.integer rfl
    | regex => exact absurd rfl hshape

/-- A sign is no part of a longer one with what it meets without a space. -/
theorem endsSign (h : t.Readable) (hlast : t.text.toList.getLast? = some last)
    (hjoins : Page.Joins shape last first) (htouches : Touches t.text shape first)
    (rest : List Char) : Lexeme.EndsSign t.text.toList (first :: rest) := by
  refine ⟨fun longer hmem hfits => ?_, fun hpoint => Lexeme.ends_cons.mpr ?_,
    fun hdivision => Lexeme.ends_cons.mpr ?_⟩
  · rw [← Nat.not_lt]
    intro hlong
    obtain ⟨htake, hnext⟩ := take_of_prefix_longer hfits hlong
    have hop : isOperator t.text = true := by
      simp only [isOperator, List.any_eq_true, Bool.and_eq_true, decide_eq_true_eq,
        List.isPrefixOf_iff_prefix]
      refine ⟨longer, hmem, htake ▸ List.take_prefix _ _, ?_⟩
      rwa [← String.length_toList, ← String.length_toList]
    have hpos : 0 < t.text.toList.length := by
      rw [String.length_toList]
      exact h.length_pos
    have hinner := Lexeme.punctuators_inner hmem hpos hnext
    rw [htake] at hinner
    rcases hinner with hc | ⟨hc, rfl⟩ | ⟨hc, rfl⟩
    · have hoperand := htouches.operand hop
      rw [hc] at hoperand
      cases hoperand
    · rw [hc] at hlast
      exact hjoins.plus (Option.some.inj hlast).symm rfl
    · rw [hc] at hlast
      exact hjoins.minus (Option.some.inj hlast).symm rfl
  · exact htouches.member (String.toList_injective (by rw [hpoint]; rfl))
  · rw [hdivision] at hlast
    exact hjoins.slash (Option.some.inj hlast).symm

/-- What needs no space behind a token, and keeps the promises of its piece, is told apart from
it. -/
theorem parts_touching (h : t.Readable) {page : Page} {before : List Char}
    (hwritten : page.written = t.text.toList.reverse ++ before)
    (hshape : page.shape = .regex ↔ t.kind = .regex) (hneeds : page.needsSpace first = false)
    (htouches : t.kind ≠ .name → Touches t.text page.shape first) (rest : List Char) :
    Lexeme.Parts t.kind t.text.toList (first :: rest) := by
  obtain ⟨init, last, hsplit⟩ : ∃ init last, t.text.toList = init ++ [last] := by
    obtain ⟨_, _, hcons⟩ := h.cons
    exact ⟨_, _, (List.dropLast_concat_getLast (by simp [hcons] : t.text.toList ≠ [])).symm⟩
  have hlast : t.text.toList.getLast? = some last := by simp [hsplit]
  have hjoins : Page.Joins page.shape last first := by
    have hpage : page.written = last :: (init.reverse ++ before) := by simp [hwritten, hsplit]
    exact Page.joins_of_needsSpace hpage hneeds
  cases hkind : t.kind with
  | name =>
    have hends := h.alone.ends hlast
    rw [hkind] at hends
    exact Lexeme.ends_cons.mpr (hjoins.word hends)
  | number =>
    have hplain : page.shape ≠ .regex := fun hregex => by simp [hshape.mp hregex] at hkind
    exact h.endsNumber hkind hlast hplain hjoins (htouches (by simp [hkind])) rest
  | string => trivial
  | punct => exact h.endsSign hlast hjoins (htouches (by simp [hkind])) rest
  | regex =>
    refine Lexeme.ends_cons.mpr ?_
    have hfirst := hjoins.regex (hshape.mpr hkind)
    rw [Bool.eq_false_iff] at hfirst ⊢
    exact fun hpart => hfirst (Lexeme.isWordChar_of_isIdPart hpart)
  | endOfText =>
    have hend := h.notEnd
    simp [isEnd, hkind] at hend

end Token.Readable
end EcmaPress

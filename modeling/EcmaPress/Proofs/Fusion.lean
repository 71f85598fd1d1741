import EcmaPress.Proofs.ReadBack
import EcmaPress.Proofs.StatementMirrors

/-!
# Tokens that run into each other

The converse of reading back. In the compact layout a number that ends in a point may be followed
directly by the word `in` or `instanceof`, and no token is read there. So the text can be read up
to this place only, and the parser, which has to read it all, fails. That it asks for every token
of the text is seen on another text: the same tokens with more white space, which are parsed.
-/

namespace EcmaPress

open Piece

/-! ### A number before a word -/

namespace Lexeme

/-- A number that ends in a point has digits before it and nothing else. -/
theorem number_digits {text : List Char} (h : number text = .ok text.length)
    (hlast : text.getLast? = some '.') :
    ∃ digits, text = digits ++ ['.'] ∧ digits.all Char.isDigit = true := by
  have hnumeral := numeral_of_number h
  by_cases hhex : ∃ x rest, text = '0' :: x :: rest ∧ (x = 'x' ∨ x = 'X')
  · obtain ⟨x, rest, rfl, hx⟩ := hhex
    simp only [numeral, if_pos hx] at hnumeral
    split at hnumeral
    · cases hnumeral
    · next digits hdigits =>
      have hlen := Except.ok.inj hnumeral
      have hends : EndsIn isHexDigit ('0' :: x :: rest) (run isHexDigit rest + 1 + 1) :=
        endsIn_cons (endsIn_cons (endsIn_run (by omega)))
      obtain ⟨c, hc, hhex⟩ := hends
      rw [hdigits, hlen, List.take_length, hlast] at hc
      obtain rfl := Option.some.inj hc
      exact absurd hhex (by decide)
  · rw [numeral_eq_decimal fun x rest heq hx => hhex ⟨x, rest, heq, hx⟩] at hnumeral
    exact decimal_point hnumeral hlast

/-- No token is read where a number that ends in a point runs into a word. -/
theorem scan_point {text : List Char} (h : scan text = .ok (.number, text.length))
    (hlast : text.getLast? = some '.') (rest : List Char) :
    scan (text ++ 'i' :: rest) = .error (.invalidNumber, 0) := by
  obtain ⟨digits, rfl, hall⟩ := number_digits (scan_number h) hlast
  cases digits with
  | nil =>
    have hpunct : scan ['.'] = .ok (.punct, 1) := rfl
    rw [List.nil_append, hpunct] at h
    cases h
  | cons c digits =>
    have hc : c.isDigit = true := by
      rw [List.all_cons, Bool.and_eq_true] at hall
      exact hall.1
    have hstart : (isIdStart c || c == '\\') = false :=
      (ofAscii (P := fun c => c.isDigit = true → (isIdStart c || c == '\\') = false) (by decide)
        (isDigit_ascii hc)) hc
    have hrun : run Char.isDigit (c :: digits ++ '.' :: 'i' :: rest) = (c :: digits).length :=
      run_append hall (ends_cons.mpr (by decide))
    have hnumeral : numeral (c :: digits ++ '.' :: 'i' :: rest) = .ok ((c :: digits).length + 1) := by
      rw [numeral_eq_decimal]
      · rw [decimal, hrun, List.drop_left]
        have hfraction : fraction ('.' :: 'i' :: rest) = 1 := rfl
        have hexponent : exponent ('i' :: rest) = some 0 := rfl
        rw [hfraction, ← List.drop_drop, List.drop_left, List.drop_one, List.tail_cons, hexponent]
      · rintro x more heq hx
        cases digits with
        | nil =>
          obtain ⟨-, heq⟩ := List.cons.inj heq
          rcases hx with rfl | rfl <;> cases heq
        | cons d digits =>
          obtain ⟨-, heq⟩ := List.cons.inj heq
          obtain ⟨rfl, -⟩ := List.cons.inj heq
          simp only [List.all_cons, Bool.and_eq_true] at hall
          rcases hx with rfl | rfl <;> exact absurd hall.2.1 (by decide)
    have hnumber : number (c :: digits ++ '.' :: 'i' :: rest) = .error .invalidNumber := by
      rw [number, hnumeral]
      have hbehind : (c :: digits ++ '.' :: 'i' :: rest).drop ((c :: digits).length + 1) =
          'i' :: rest := by
        rw [← List.drop_drop, List.drop_left]
        rfl
      simp only [hbehind]
      rfl
    simp only [List.append_assoc, List.cons_append, List.nil_append] at hnumber ⊢
    simp only [scan, hstart, hc, Bool.true_or, Bool.false_eq_true, if_false, if_true, hnumber]

end Lexeme

/-- Only a number ends in a point. -/
theorem Token.Readable.kind_of_endsInPoint {t : Token} (h : t.Readable)
    (hends : endsInPoint t.text = true) : t.kind = .number := by
  simp only [endsInPoint, Bool.and_eq_true, beq_iff_eq, bne_iff_ne] at hends
  obtain ⟨hlast, hne⟩ := hends
  have hkind := h.alone.ends hlast
  cases hk : t.kind with
  | number => rfl
  | punct =>
    have hmem := (h.spelled (by simp [hk])).mem_punctuators hk
    exact absurd hlast ((by decide : ∀ sign ∈ punctuators, sign ≠ "." →
      sign.toList.getLast? ≠ some '.') t.text hmem hne)
  | name | string | regex | endOfText =>
    rw [hk] at hkind
    exact absurd hkind (by decide)

/-- What is written next stands ahead. -/
theorem Piece.ahead_of_texts {w : Wording} {ps : List Piece} {s : String}
    (h : (texts w ps).head? = some s) (spaced : Bool) :
    ∃ spaced' q, ahead w.drop spaced ps = some (spaced', q) ∧ q.text w = some s := by
  induction ps generalizing spaced with
  | nil => cases h
  | cons p ps ih =>
    cases htext : p.text w with
    | some s' =>
      rw [texts_written htext] at h
      obtain rfl : s' = s := Option.some.inj h
      exact ⟨spaced, p, ahead_written htext spaced ps, htext⟩
    | none =>
      rw [texts_silent htext] at h
      cases p with
      | token | name => cases htext
      | terminator last =>
        simp only [ahead, if_pos (text_terminator_eq_none.mp htext)]
        exact ih h spaced
      | space | newline => exact ih h true
      | indent | dedent => exact ih h spaced

/-- A word behind a number that ends in a point is an operator. -/
theorem Piece.relation_of_point {w : Wording} {p : Piece} {ps : List Piece} {t : Token} {next : String}
    (hread : t.Readable) (htext : p.text w = some t.text) (hallows : p.Allows t)
    (hends : endsInPoint t.text = true) (hsits : Sits w.drop (p :: ps))
    (hhead : (texts w ps).head? = some next) (hword : beginsWord next = true) :
    next = "in" ∨ next = "instanceof" := by
  have hname : ∀ id, p ≠ .name id := by
    intro id hid
    have hkind := hallows.2 id hid
    rw [hread.kind_of_endsInPoint hends] at hkind
    cases hkind
  obtain ⟨spaced, q, hahead, hq⟩ := ahead_of_texts hhead false
  have hcalm := (link_of_sits hsits htext hname).word hends
  rw [hahead, isCalm, Option.all_some, Bool.or_eq_true, Bool.not_eq_true', Bool.and_eq_true] at hcalm
  rcases hcalm with hno | ⟨-, hrelation⟩
  · rw [text_passes (by decide) hq hno] at hword
    cases hword
  · cases q with
    | token text origin shape =>
      obtain rfl : text = next := Option.some.inj hq
      simpa [isRelation] using hrelation
    | _ => cases hrelation

theorem apart_of_cons {text : String} {rest : List String}
    (h : endsInPoint text = true → ∀ next ∈ rest.head?, beginsWord next = false)
    (hrest : apart rest = true) : apart (text :: rest) = true := by
  cases rest with
  | nil => rfl
  | cons next rest =>
    simp only [apart, hrest, Bool.and_true, Bool.not_eq_true', Bool.and_eq_false_imp]
    exact fun hends => h hends next rfl

/-! ### How compact texts are read -/

/-- Reading fails where no token is read behind the gap. -/
theorem Input.next_error {input : Input} {n : Nat} {fault : Fault × Nat}
    (hgap : Lexeme.gap input.chars = .ok n)
    (hscan : Lexeme.scan (input.drop n).chars = .error fault) (past : List Token) :
    ∃ e, input.next past = .error e := by
  cases hnext : input.next past with
  | error e => exact ⟨e, rfl⟩
  | ok c =>
    obtain ⟨n', kind, m, hgap', hscan', -⟩ := Cursor.next_eq_ok.mp hnext
    rw [hgap] at hgap'
    obtain rfl := Except.ok.inj hgap'
    rw [hscan] at hscan'
    cases hscan'

namespace Page

variable {style : Style} {renames : Renames}

/-- In a compact text a token follows directly behind another one, unless it needs a space. -/
theorem compact_marks (hstyle : style.indent = none) {ps : List Piece} {s : String}
    {first : Char} {more : List Char}
    (hhead : (texts (.ofStyle style renames) ps).head? = some s) (hcons : s.toList = first :: more)
    (page : Page) (hline : page.lineStart = false) :
    ∃ tail, page.allMarks style renames ps =
      (if page.needsSpace first then [' '] else []) ++ first :: tail := by
  induction ps generalizing page with
  | nil => cases hhead
  | cons p ps ih =>
    cases htext : p.text (.ofStyle style renames) with
    | some s' =>
      rw [texts_written htext] at hhead
      obtain rfl : s' = s := Option.some.inj hhead
      refine ⟨more ++ (page.set style renames p).allMarks style renames ps, ?_⟩
      simp [allMarks, marks, htext, hcons, tokenMarks, lead_of_started hline]
    | none =>
      rw [texts_silent htext] at hhead
      have hmarks : page.marks style renames p = [] := by simp [marks, htext, hstyle]
      have hset : (page.set style renames p).Alike page := by
        cases p with
        | token | name => cases htext
        | terminator last =>
          have hdrop : (last && style.dropSemicolons) = true := text_terminator_eq_none.mp htext
          simp only [set, if_pos hdrop]
          exact ⟨rfl, rfl, rfl⟩
        | space | newline => simp only [set, hstyle]; exact ⟨rfl, rfl, rfl⟩
        | indent | dedent => exact ⟨rfl, rfl, rfl⟩
      obtain ⟨tail, htail⟩ := ih hhead (page.set style renames p) (hset.lineStart.trans hline)
      exact ⟨tail, by rw [allMarks, hmarks, List.nil_append, htail, hset.needsSpace]⟩

/-- A number that ends in a point needs no space before a word. -/
theorem needsSpace_point {page : Page} {before : List Char} {first : Char}
    (hwritten : page.written = '.' :: before) (hshape : page.shape ≠ .regex)
    (hfirst : isWordChar first = true) : page.needsSpace first = false := by
  have hpoint : first ≠ '.' := by
    rintro rfl
    exact absurd hfirst (by decide)
  have hword : isWordChar '.' = false := by decide
  simp [needsSpace, hwritten, hword, hshape, hpoint]

/-- So the word is written directly behind the number. -/
theorem marks_fused (hstyle : style.indent = none) {p : Piece} {ps : List Piece} {t : Token}
    (htext : p.text (.ofStyle style renames) = some t.text) (hread : t.Readable)
    (hallows : p.Allows t) (hends : endsInPoint t.text = true) {s : String}
    (hhead : (texts (.ofStyle style renames) ps).head? = some s) {first : Char} {more : List Char}
    (hcons : s.toList = first :: more) (hfirst : isWordChar first = true) (page : Page) :
    ∃ tail, (page.set style renames p).allMarks style renames ps = first :: tail := by
  obtain ⟨before, hwritten, hline, hshape⟩ := page.set_readable hread htext
  obtain ⟨tail, htail⟩ := compact_marks hstyle hhead hcons (page.set style renames p) hline
  have hlast : ∃ before, (page.set style renames p).written = '.' :: before := by
    simp only [endsInPoint, Bool.and_eq_true, beq_iff_eq] at hends
    obtain ⟨init, hinit⟩ := List.getLast?_eq_some_iff.mp hends.1
    refine ⟨init.reverse ++ before, ?_⟩
    rw [hwritten, hinit]
    simp
  obtain ⟨before, hbefore⟩ := hlast
  have hregex : (page.set style renames p).shape ≠ .regex := by
    rw [hshape]
    intro hregex
    have hkind := hallows.1.mp hregex
    rw [hread.kind_of_endsInPoint hends] at hkind
    cases hkind
  rw [needsSpace_point hbefore hregex hfirst] at htail
  exact ⟨tail, htail⟩

/-- Where a number runs into a word, nothing is read, whatever stands behind it. -/
theorem Lays.error_of_fused {page : Page} {blanks last : List Char} {p : Piece} {ps : List Piece}
    {xs : List Spaced} {t : Token}
    (hlays : (page.set style renames p).Lays style renames [] ps xs last)
    (hstyle : style.indent = none) (hblank : IsWhite blanks)
    (htext : p.text (.ofStyle style renames) = some t.text) (hread : t.Readable)
    (hallows : p.Allows t) (hsits : Sits style.dropSemicolons (p :: ps))
    (hends : endsInPoint t.text = true) {next : String}
    (hhead : (Piece.texts (.ofStyle style renames) ps).head? = some next) (hword : beginsWord next = true)
    {rest : List Char} {input : Input}
    (hchars : input.chars = spacedText ((blanks, t) :: xs) (last ++ rest)) (past : List Token) :
    ∃ e, input.next past = .error e := by
  have hi : ∃ tail, (page.set style renames p).allMarks style renames ps = 'i' :: tail := by
    rcases relation_of_point hread htext hallows hends hsits hhead hword with rfl | rfl
    · exact marks_fused hstyle htext hread hallows hends hhead rfl (by decide) page
    · exact marks_fused hstyle htext hread hallows hends hhead rfl (by decide) page
  obtain ⟨tail, htail⟩ := hi
  have hkind := hread.kind_of_endsInPoint hends
  have hlast : t.text.toList.getLast? = some '.' := by
    simp only [endsInPoint, Bool.and_eq_true, beq_iff_eq] at hends
    exact hends.1
  have hscan := hread.spelled (by simp [hkind])
  rw [Token.Spelled, hkind, ← String.length_toList] at hscan
  rw [spacedText, spacedText_before, hlays.text, htail] at hchars
  have hgap : Lexeme.gap input.chars = .ok blanks.length := by
    rw [hchars]
    refine hread.gap hblank.isGap fun hslash => ?_
    rw [hslash] at hlast
    cases hlast
  have hfails : Lexeme.scan (input.drop blanks.length).chars = .error (.invalidNumber, 0) := by
    have hbehind : (input.drop blanks.length).chars = t.text.toList ++ 'i' :: (tail ++ rest) := by
      simp [Input.drop, hchars]
    rw [hbehind]
    exact Lexeme.scan_point hscan hlast _
  exact Input.next_error hgap hfails past

/-- Where a number runs into a word, the compact text can be read up to there and no further. -/
theorem Lays.halts {page : Page} {blanks last : List Char} {ps : List Piece} {xs : List Spaced}
    (h : page.Lays style renames blanks ps xs last) (hstyle : style.indent = none)
    (hblank : IsWhite blanks) (hsits : Sits style.dropSemicolons ps)
    (hfused : apart (Piece.texts (.ofStyle style renames) ps) = false) (rest : List Char) :
    Halts xs (last ++ rest) := by
  have hcompact : ∀ indent ∈ style.indent, ∀ c ∈ indent.toList, c = ' ' := by simp [hstyle]
  -- The induction goes to the first number that runs into a word.
  induction h with
  | done => cases hfused
  | @silent page _ _ _ _ _ htext _ ih =>
    rw [texts_silent htext] at hfused
    exact ih (hblank.append fun c hc => (page.marks_silent htext c hc).imp_right And.left)
      (sits_tail hsits) hfused
  | @written page blanks _ p ps xs t first more htext hcons hread hallows hlays ih =>
    have hwhite : IsWhite (blanks ++ page.lead style first) :=
      hblank.append fun c hc => .inl (page.lead_blank hcompact first c hc)
    by_cases hapart : endsInPoint t.text = true →
        ∀ next ∈ (Piece.texts (.ofStyle style renames) ps).head?, beginsWord next = false
    · rw [texts_written htext, ← Bool.not_eq_true] at hfused
      have hfused' : apart (Piece.texts (.ofStyle style renames) ps) = false := by
        rw [← Bool.not_eq_true]
        exact fun hrest => hfused (apart_of_cons hapart hrest)
      refine .inr ⟨hwhite, hread, ?_, ih isWhite_nil (sits_tail hsits) hfused'⟩
      refine hlays.parts htext hread hallows hsits (fun _ => hapart) fun hnone => ?_
      -- There are more tokens, or no number would run into one.
      rw [← hlays.texts, hnone] at hfused'
      cases hfused'
    · simp only [Classical.not_imp, Classical.not_forall, Bool.not_eq_false] at hapart
      obtain ⟨hends, next, hhead, hword⟩ := hapart
      exact .inl fun input past hchars =>
        hlays.error_of_fused hstyle hwhite htext hread hallows hsits hends hhead hword hchars past

end Page

/-! ### How they are parsed -/

/-- The tokens of two runs that are alike are alike in front. -/
theorem Cursor.Stuck.token_eq {c d d' : Cursor} {us vs : List Token} (h : c.Stuck vs)
    (hreads : d.Reads us d') (heq : vs.map Token.unplaced = us.map Token.unplaced) :
    c.token.unplaced = d.token.unplaced := by
  have hfront {v : Token} {vs : List Token} {r : Cursor} (hoffer : c.Offers v r)
      (heq : (v :: vs).map Token.unplaced = us.map Token.unplaced) :
      c.token.unplaced = d.token.unplaced := by
    cases hreads with
    | done => cases heq
    | more htake _ =>
      obtain ⟨s, hoffer', -⟩ := Cursor.takes_iff.mp htake
      rw [List.map_cons, List.map_cons] at heq
      exact hoffer.token_eq hoffer' (List.cons.inj heq).1
  cases h with
  | here hoffer _ => exact hfront hoffer heq
  | more htake _ =>
    obtain ⟨r, hoffer, -⟩ := Cursor.takes_iff.mp htake
    exact hfront hoffer heq

/-- A text that halts is not parsed if its tokens are, wherever all of them can be read. -/
theorem Halts.parse_error {xs : List Spaced} {rest : List Char} (h : Halts xs rest)
    (hwhite : ∀ x ∈ xs, IsWhite x.1 ∧ x.2.Readable)
    (hparsed : ∀ us d d', us.map Token.unplaced = (spacedTokens .start xs).map Token.unplaced →
      d.Reads us d' → d'.token.isEnd = true → ∃ y, Grammar.program d = .ok (y, d'))
    {text : String} (htext : text.toList = spacedText xs rest) (name : Option String) :
    ∃ e, parse text name = .error e := by
  cases hcopy : parse text name with
  | error e => exact ⟨e, rfl⟩
  | ok copy =>
    obtain ⟨c, c', hc, hprogram⟩ := parse_eq_ok.mp hcopy
    rcases h.stuck (show (Input.ofList text.toList).chars = _ from htext) [] with
      ⟨e, herror⟩ | ⟨k, hk, hstuck⟩
    · rw [hc] at herror
      cases herror
    obtain rfl := Except.ok.inj (hc.symm.trans hk)
    -- With more white space all of the tokens are read.
    have hloosened : Parted (loosened xs) ([] ++ []) := parted_loosened hwhite (.inl rfl)
    obtain ⟨d, d', hd, hreads, hend⟩ := hloosened.reads_end isWhite_nil Input.shows_end
      (show (Input.ofList (spacedText (loosened xs) [])).chars = _ from rfl) []
    obtain ⟨y, hy⟩ := hparsed _ d d' (unplaced_loosened ..) hreads hend
    obtain ⟨us, hreads', hmirror⟩ := Grammar.mirrors_program d (Cursor.next_kind hd) y d' hy
    obtain rfl := hreads.unique hreads'
    obtain ⟨e, he⟩ := (hmirror c _ (hstuck.token_eq hreads (unplaced_loosened ..).symm)
      (unplaced_loosened ..).symm).2 hstuck
    rw [hprogram] at he
    cases he

/-- A compact text in which a number runs into a word is not parsed. -/
theorem apart_of_parse {source text : String} {name name' : Option String} {program copy : Program}
    (h : parse source name = .ok program) {style : Style} {renames : Renames}
    (hstyle : style.indent = none) (hlegible : Legible (.ofStyle style renames) program.pieces)
    (htext : text.toList = ({} : Page).allMarks style renames program.pieces)
    (hcopy : parse text name' = .ok copy) :
    apart (texts (.ofStyle style renames) program.pieces) = true := by
  obtain ⟨c, c', -, hprogram⟩ := parse_eq_ok.mp h
  have hecho := ProgramEcho.program hprogram
  have hindent : ∀ indent ∈ style.indent, ∀ c ∈ indent.toList, c = ' ' := by simp [hstyle]
  rw [← Bool.not_eq_false]
  intro hfused
  obtain ⟨xs, last, hlays⟩ := ({} : Page).exists_lays hlegible.lexical []
  obtain ⟨e, he⟩ := (hlays.halts hstyle isWhite_nil (hecho.sits _) hfused []).parse_error
    (hlays.white hindent isWhite_nil).1
    (fun us d d' hus hreads hend => by
      obtain ⟨y, hy, -⟩ := hecho.again _ _ d d'
        (hlays.spells hindent hlegible isWhite_nil (fun _ => (rfl : true = true)) hus hreads) hend
      exact ⟨y, hy⟩)
    (by rw [List.append_nil, hlays.text, htext, List.nil_append]) name'
  rw [hcopy] at he
  cases he

end EcmaPress

import EcmaPress.Proofs.Bundles
import EcmaPress.Proofs.Concatenation

/-!
# Signs of HTML comments

In a web page a script may be cut off by `<!--` and by `-->`. Operators that follow one another can
make up such a sign in many ways, but what is printed has none outside of strings and regular
expressions: no other token has one in it, and a page sets a space wherever a token and the character
behind it would go on with one.
-/

namespace EcmaPress

open Piece

/-- The signs that begin and end HTML comments. -/
def commentSigns : List (List Char) :=
  [['<', '!', '-', '-'], ['-', '-', '>']]

/-! ### Signs within tokens -/

namespace Lexeme

theorem count_take_run {p : Char → Bool} {c : Char} (hc : p c = false) (text : List Char) :
    (text.take (run p text)).count c = 0 := by
  rw [List.count_eq_zero]
  intro hmem
  have hp := List.all_eq_true.mp (all_take_run p text) c hmem
  rw [hc] at hp
  cases hp

theorem count_take_fraction (text : List Char) :
    (text.take (fraction text)).count '-' = 0 := by
  unfold fraction
  split
  · rw [List.take_succ_cons, List.count_cons, count_take_run (by decide)]
    rfl
  · rfl

theorem count_take_exponent {text : List Char} {n : Nat} (h : exponent text = some n) :
    (text.take n).count '-' ≤ 1 := by
  cases text with
  | nil => simp
  | cons e text =>
    by_cases he : e = 'e' ∨ e = 'E'
    · have hletter : (e == '-') = false := by rcases he with rfl | rfl <;> decide
      have hsign : exponentSign text ≤ 1 := by
        unfold exponentSign
        split <;> (try split) <;> decide
      simp only [exponent, he, if_true] at h
      split at h
      · cases h
      · next digits hdigits =>
        obtain rfl : digits + exponentSign text + 2 = n := by simpa using h
        have hrun := count_take_run (c := '-') (p := Char.isDigit) (by decide)
          (text.drop (exponentSign text))
        have hlen : (text.take (exponentSign text)).count '-' ≤ 1 :=
          List.count_le_length.trans ((List.length_take_le ..).trans hsign)
        rw [hdigits] at hrun
        rw [show digits + exponentSign text + 2 = exponentSign text + (digits + 1) + 1 by omega,
          List.take_succ_cons, List.count_cons, hletter, List.take_add, List.count_append, hrun]
        simpa using hlen
    · obtain rfl : 0 = n := by simpa [exponent, he] using h
      simp

theorem count_take_decimal {text : List Char} {n : Nat} (h : decimal text = .ok n) :
    (text.take n).count '-' ≤ 1 := by
  simp only [decimal] at h
  split at h
  · cases h
  · next k hk =>
    obtain rfl := Except.ok.inj h
    rw [List.take_add, List.take_add, List.count_append, List.count_append,
      count_take_run (by decide), count_take_fraction]
    simpa using count_take_exponent hk

/-- The only minus sign in a number is that of its exponent. -/
theorem count_take_number {text : List Char} {n : Nat} (h : number text = .ok n) :
    (text.take n).count '-' ≤ 1 := by
  have hnumeral := numeral_of_number h
  by_cases hhex : ∃ x inner, text = '0' :: x :: inner ∧ (x = 'x' ∨ x = 'X')
  · obtain ⟨x, inner, rfl, hx⟩ := hhex
    have hletter : (x == '-') = false := by rcases hx with rfl | rfl <;> decide
    simp only [numeral, hx, if_true] at hnumeral
    split at hnumeral
    · cases hnumeral
    · next digits hdigits =>
      obtain rfl := Except.ok.inj hnumeral
      have hrun := count_take_run (c := '-') (p := isHexDigit) (by decide) inner
      rw [hdigits] at hrun
      rw [List.take_succ_cons, List.take_succ_cons, List.count_cons, List.count_cons, hletter, hrun]
      decide
  · rw [numeral_eq_decimal fun x inner heq hx => hhex ⟨x, inner, heq, hx⟩] at hnumeral
    exact count_take_decimal hnumeral

end Lexeme

namespace Token.Readable

variable {t : Token}

/-- No token has a comment sign in it, unless it is a string or a regular expression. -/
theorem not_infix_sign (h : t.Readable) (hstring : t.kind ≠ .string) (hregex : t.kind ≠ .regex)
    {sign : List Char} (hsign : sign ∈ commentSigns) : ¬ sign <:+: t.text.toList := by
  intro hwithin
  have htwo : 2 ≤ t.text.toList.count '-' :=
    ((by decide : ∀ sign ∈ commentSigns, 2 ≤ sign.count '-') sign hsign).trans
      (hwithin.sublist.count_le '-')
  have hspelled := h.spelled hregex
  have htake : t.text.toList.take t.text.length = t.text.toList := h.alone.take
  cases hkind : t.kind with
  | name =>
    rw [Spelled, hkind] at hspelled
    have hall := Lexeme.all_take_name (Lexeme.scan_name hspelled)
    rw [htake] at hall
    have hmem : '-' ∈ t.text.toList := List.count_pos_iff.mp (by omega)
    exact absurd (List.all_eq_true.mp hall '-' hmem) (by decide)
  | number =>
    rw [Spelled, hkind] at hspelled
    have hcount := Lexeme.count_take_number (Lexeme.scan_number hspelled)
    rw [htake] at hcount
    omega
  | punct =>
    have hnone : ∀ text ∈ punctuators, ∀ sign ∈ commentSigns, ¬ sign <:+: text.toList := by decide
    exact hnone t.text (hspelled.mem_punctuators hkind) sign hsign hwithin
  | string => exact hstring hkind
  | regex => exact hregex hkind
  | endOfText =>
    have hend := h.notEnd
    simp [isEnd, hkind] at hend

/-- No token ends where the beginning of a comment would go on with a minus sign. -/
theorem not_suffix_mark (h : t.Readable) : ¬ ['<', '!'] <:+ t.text.toList := by
  intro hsuffix
  obtain ⟨init, hinit⟩ := id hsuffix
  have hlast : t.text.toList.getLast? = some '!' := by
    rw [← hinit]
    simp
  have hends := h.alone.ends hlast
  cases hkind : t.kind with
  | punct =>
    have hnone : ∀ text ∈ punctuators, ¬ ['<', '!'] <:+ text.toList := by decide
    exact hnone t.text ((h.spelled (by simp [hkind])).mem_punctuators hkind) hsuffix
  | _ =>
    rw [hkind] at hends
    exact absurd hends (by decide)

end Token.Readable

/-! ### Signs across tokens -/

/-- What stands behind a token does not go on with a comment sign. -/
structure Avoids (token rest : List Char) : Prop where
  mark : ['<'] <:+ token → rest.head? ≠ some '!'
  minus : ['-'] <:+ token → rest.head? ≠ some '-'
  arrow : ['-', '-'] <:+ token → rest.head? ≠ some '>'

theorem avoids_of_head {token rest : List Char}
    (h : ∀ c ∈ rest.head?, c ≠ '!' ∧ c ≠ '-' ∧ c ≠ '>') : Avoids token rest where
  mark := fun _ hhead => (h _ hhead).1 rfl
  minus := fun _ hhead => (h _ hhead).2.1 rfl
  arrow := fun _ hhead => (h _ hhead).2.2 rfl

theorem avoids_separator {token rest : List Char} {c : Char} (hc : c = ' ' ∨ c = '\n' ∨ c = ';') :
    Avoids token (c :: rest) := by
  apply avoids_of_head
  intro d hd
  obtain rfl := Option.some.inj hd
  rcases hc with rfl | rfl | rfl <;> decide

/-- Behind the end of a statement stands what may. -/
theorem avoids_closed {text : String} (h : text = ";" ∨ text = "\x7d") (rest : List Char) :
    Avoids text.toList rest := by
  have hnone : ¬ ['<'] <:+ text.toList ∧ ¬ ['-'] <:+ text.toList ∧ ¬ ['-', '-'] <:+ text.toList := by
    rcases h with rfl | rfl <;> decide
  exact ⟨fun hmark => absurd hmark hnone.1, fun hminus => absurd hminus hnone.2.1,
    fun harrow => absurd harrow hnone.2.2⟩

/-- A page that needs no space sets no comment sign. -/
theorem Page.avoids_of_needsSpace {page : Page} {token before : List Char} {first : Char}
    (hwritten : page.written = token.reverse ++ before) (h : page.needsSpace first = false)
    (rest : List Char) : Avoids token (first :: rest) := by
  constructor
  · rintro ⟨init, rfl⟩ hfirst
    obtain rfl := Option.some.inj hfirst
    simp [needsSpace, hwritten] at h
  · rintro ⟨init, rfl⟩ hfirst
    obtain rfl := Option.some.inj hfirst
    simp [needsSpace, hwritten] at h
  · rintro ⟨init, rfl⟩ hfirst
    obtain rfl := Option.some.inj hfirst
    simp [needsSpace, hwritten] at h

/-- No comment sign begins in a token and goes on behind it. -/
theorem Token.Readable.not_across {t : Token} (h : t.Readable) {rest : List Char}
    (havoids : Avoids t.text.toList rest) {sign : List Char} (hsign : sign ∈ commentSigns) {n : Nat}
    (hpos : 0 < n) (hlt : n < sign.length) (htext : sign.take n <:+ t.text.toList)
    (hrest : rest.head? = (sign.drop n).head?) : False := by
  have hcuts : ∀ sign ∈ commentSigns, ∀ n < sign.length, 0 < n →
      (['<'] <:+ sign.take n ∧ (sign.drop n).head? = some '!') ∨
      (['-'] <:+ sign.take n ∧ (sign.drop n).head? = some '-') ∨
      (['-', '-'] <:+ sign.take n ∧ (sign.drop n).head? = some '>') ∨
      ['<', '!'] <:+ sign.take n := by
    decide
  obtain ⟨hend, hhead⟩ | ⟨hend, hhead⟩ | ⟨hend, hhead⟩ | hend := hcuts sign hsign n hlt hpos
  · exact havoids.mark (hend.trans htext) (hrest.trans hhead)
  · exact havoids.minus (hend.trans htext) (hrest.trans hhead)
  · exact havoids.arrow (hend.trans htext) (hrest.trans hhead)
  · exact h.not_suffix_mark (hend.trans htext)

/-! ### Texts of tokens -/

/-- No token goes on with a comment sign behind it. -/
def Unmarked : List Spaced → List Char → Prop
  | [], _ => True
  | (blanks, t) :: xs, rest => IsWhite blanks ∧ t.Readable ∧
    Avoids t.text.toList (spacedText xs rest) ∧ Unmarked xs rest

theorem unmarked_append {xs ys : List Spaced} {rest : List Char} :
    Unmarked (xs ++ ys) rest ↔ Unmarked xs (spacedText ys rest) ∧ Unmarked ys rest := by
  induction xs with
  | nil => simp [Unmarked]
  | cons x xs ih => simp only [List.cons_append, Unmarked, spacedText_append, ih, and_assoc]

/-- Every comment sign in a text of tokens lies inside a string or a regular expression. -/
def LiteralSigns (xs : List Spaced) (last : List Char) : Prop :=
  ∀ sign ∈ commentSigns, ∀ front back, spacedText xs last = front ++ (sign ++ back) →
    ∃ ys blanks t zs before after, xs = ys ++ (blanks, t) :: zs ∧
      (t.kind = .string ∨ t.kind = .regex) ∧ t.text.toList = before ++ (sign ++ after) ∧
      front = spacedText ys (blanks ++ before) ∧ back = after ++ spacedText zs last

theorem append_cases {α : Type} {xs ys front back : List α} (h : xs ++ ys = front ++ back) :
    (∃ more, front = xs ++ more ∧ ys = more ++ back) ∨
      ∃ c cut, xs = front ++ c :: cut ∧ back = c :: cut ++ ys := by
  obtain ⟨more, rfl, rfl⟩ | ⟨cut, rfl, rfl⟩ := List.append_eq_append_iff.mp h
  · exact .inl ⟨more, rfl, rfl⟩
  · cases cut with
    | nil => exact .inl ⟨[], by simp, rfl⟩
    | cons c cut => exact .inr ⟨c, cut, rfl, rfl⟩

/-- No comment sign begins in white space. -/
theorem IsWhite.skip {blanks rest front back sign : List Char} (h : IsWhite blanks)
    (hsign : sign ∈ commentSigns) (htext : blanks ++ rest = front ++ (sign ++ back)) :
    ∃ before, front = blanks ++ before ∧ rest = before ++ (sign ++ back) := by
  obtain hskip | ⟨c, cut, hblanks, hback⟩ := append_cases htext
  · exact hskip
  · have hfirst : sign.head? = some c := by
      have hne : sign ≠ [] := (by decide : ∀ sign ∈ commentSigns, sign ≠ []) sign hsign
      have hhead := congrArg List.head? hback
      rwa [List.head?_append_of_ne_nil _ hne] at hhead
    have hnone : ∀ sign ∈ commentSigns, ∀ c ∈ sign.head?, c ≠ ' ' ∧ c ≠ '\n' := by
      simp [commentSigns]
    have hc := h c (hblanks ▸ List.mem_append_right _ (List.mem_cons_self ..))
    exact absurd hc (not_or.mpr (hnone sign hsign c hfirst))

theorem Unmarked.literalSigns {xs : List Spaced} {last : List Char} (h : Unmarked xs last)
    (hlast : IsWhite last) : LiteralSigns xs last := by
  intro sign hsign front back htext
  induction xs generalizing front with
  | nil =>
    rw [spacedText, ← List.append_nil last] at htext
    obtain ⟨before, -, hnone⟩ := hlast.skip hsign htext
    have hne : sign ≠ [] := (by decide : ∀ sign ∈ commentSigns, sign ≠ []) sign hsign
    simp [hne] at hnone
  | cons x xs ih =>
    obtain ⟨blanks, t⟩ := x
    obtain ⟨hblank, hread, havoids, hrest⟩ := h
    obtain ⟨before, rfl, htoken⟩ := hblank.skip hsign htext
    obtain ⟨front, rfl, hmore⟩ | ⟨c, cut, hcut, hback⟩ := append_cases htoken
    · -- The sign begins behind the token.
      obtain ⟨ys, blanks', u, zs, before, after, rfl, hkind, hu, rfl, rfl⟩ := ih hrest front hmore
      refine ⟨(blanks, t) :: ys, blanks', u, zs, before, after, rfl, hkind, hu, ?_, rfl⟩
      rw [spacedText]
    obtain ⟨after, hinside, rfl⟩ | ⟨d, more, hacross, hbehind⟩ := append_cases hback
    · -- The sign lies in the token.
      have htext : t.text.toList = before ++ (sign ++ after) := by rw [hcut, hinside]
      refine ⟨[], blanks, t, xs, before, after, rfl, ?_, htext, rfl, rfl⟩
      by_contra hnot
      obtain ⟨hstring, hregex⟩ := not_or.mp hnot
      refine hread.not_infix_sign hstring hregex hsign ?_
      rw [htext]
      exact ⟨before, after, by rw [List.append_assoc]⟩
    · -- The sign would begin in the token and go on behind it.
      refine (hread.not_across havoids hsign (Nat.succ_pos cut.length) ?_ ?_ ?_).elim
      · rw [hacross, List.length_append, List.length_cons, List.length_cons]
        omega
      · rw [hacross, hcut]
        exact ⟨before, by simp⟩
      · rw [hbehind, hacross]
        simp

/-! ### Laid out pieces -/

namespace Page

variable {style : Style} {renames : Renames} {page : Page} {blanks last rest : List Char}
  {ps : List Piece} {xs : List Spaced}

/-- What a page sets behind a token goes on with no comment sign, and neither does what begins in
the same way. -/
theorem avoids {p : Piece} {t : Token} (hread : t.Readable)
    (htext : p.text (.ofStyle style renames) = some t.text)
    (hlexical : Lexical (.ofStyle style renames) ps) (page : Page)
    (hrest : rest.head? = ((page.set style renames p).allMarks style renames ps).head?) :
    Avoids t.text.toList rest := by
  obtain ⟨before, hwritten, hline, -⟩ := page.set_readable hread htext
  have honward := onward_lexical hlexical hline
  generalize (page.set style renames p).allMarks style renames ps = marks at honward hrest
  cases honward with
  | done =>
    rw [List.head?_eq_none_iff.mp hrest]
    exact avoids_of_head nofun
  | blank hc =>
    obtain ⟨rest, rfl⟩ := List.head?_eq_some_iff.mp hrest
    exact avoids_separator (hc.imp_right .inl)
  | touching _ _ _ _ _ hneeds =>
    obtain ⟨rest, rfl⟩ := List.head?_eq_some_iff.mp hrest
    exact avoids_of_needsSpace hwritten hneeds rest

/-- No token of laid out pieces goes on with a comment sign, if the last one does not. -/
theorem Lays.unmarked (h : page.Lays style renames blanks ps xs last)
    (hindent : ∀ indent ∈ style.indent, ∀ c ∈ indent.toList, c = ' ') (hblank : IsWhite blanks)
    (hlast : ∀ x ∈ xs.getLast?, Avoids x.2.text.toList rest) : Unmarked xs (last ++ rest) := by
  induction h with
  | done => trivial
  | @silent page _ _ _ _ _ htext _ ih =>
    exact ih (hblank.append fun c hc => (page.marks_silent htext c hc).imp_right And.left) hlast
  | @written page _ _ p ps xs t first _ htext _ hread _ hlays ih =>
    refine ⟨hblank.append fun c hc => .inl (page.lead_blank hindent first c hc), hread, ?_,
      ih isWhite_nil fun x hx => hlast x ?_⟩
    · obtain ⟨rfl, hrest⟩ | hhead := hlays.behind rest
      · rw [hrest]
        exact hlast _ rfl
      · exact avoids hread htext hlays.lexical page hhead
    · rw [List.getLast?_cons, Option.mem_def.mp hx]
      rfl

end Page

/-! ### Printed programs and bundles -/

/-- A text is made of tokens in given words, with white space around them, and no token goes on with
a comment sign. -/
def IsUnmarked (text : List Char) (words : List String) : Prop :=
  ∃ xs last, spacedText xs last = text ∧ IsWhite last ∧ xs.map (fun x => x.2.text) = words ∧
    Unmarked xs last

/-- A text is made of tokens in given words, with white space around them, and each comment sign in
it lies inside a string or a regular expression. -/
def SignsInLiterals (text : List Char) (words : List String) : Prop :=
  ∃ xs last, text = spacedText xs last ∧ (∀ x ∈ xs, IsWhite x.1 ∧ x.2.Readable) ∧ IsWhite last ∧
    xs.map (fun x => x.2.text) = words ∧ LiteralSigns xs last

theorem Unmarked.white {xs : List Spaced} {rest : List Char} (h : Unmarked xs rest) :
    ∀ x ∈ xs, IsWhite x.1 ∧ x.2.Readable := by
  induction xs with
  | nil => nofun
  | cons x xs ih =>
    obtain ⟨hblank, hread, -, hrest⟩ := h
    exact List.forall_mem_cons.mpr ⟨⟨hblank, hread⟩, ih hrest⟩

theorem IsUnmarked.signs {text : List Char} {words : List String} (h : IsUnmarked text words) :
    SignsInLiterals text words := by
  obtain ⟨xs, last, htext, hlast, hwords, hunmarked⟩ := h
  exact ⟨xs, last, htext.symm, hunmarked.white, hlast, hwords, hunmarked.literalSigns hlast⟩

theorem IsUnmarked.white {blanks : List Char} (h : IsWhite blanks) : IsUnmarked blanks [] :=
  ⟨[], blanks, rfl, h, rfl, trivial⟩

/-- A semicolon stands in front of a text without marks. -/
theorem IsUnmarked.semicolon {text blanks : List Char} {words : List String}
    (h : IsUnmarked text words) (hblank : IsWhite blanks) :
    IsUnmarked (blanks ++ ';' :: text) (";" :: words) := by
  obtain ⟨xs, last, rfl, hlast, rfl, hunmarked⟩ := h
  exact ⟨(blanks, ⟨.punct, ";", .start, false⟩) :: xs, last, rfl, hlast, rfl, hblank,
    readable_semicolon, avoids_closed (.inl rfl) _, hunmarked⟩

namespace Push

/-- The words of programs in their order, with a semicolon where one was dropped. -/
def words (openEnd : Bool) : List Push → List String
  | [] => []
  | push :: rest =>
    (if openEnd then [";"] else []) ++
      (push.program.written push.rules ++ words push.printed.openEnd rest)

/-- A printed program stands in front of a text that begins with the semicolon which may be
missing. -/
theorem isUnmarked (push : Push) {behind blanks : List Char} {words : List String}
    (h : ∀ blanks, IsWhite blanks → IsUnmarked (blanks ++ behind) words)
    (hbehind : push.printed.openEnd = true → ∀ c ∈ behind.head?, c = ';') (hblank : IsWhite blanks) :
    IsUnmarked (blanks ++ (push.printed.text.toList ++ behind))
      (push.program.written push.rules ++ words) := by
  obtain ⟨name, hparse⟩ := push.parsed
  have hkept := legible_of_parse hparse
    (w := ⟨Identifier.name, (Style.ofRules push.rules).dropSemicolons⟩) fun _ => rfl
  have hindent : ∀ indent ∈ (Style.ofRules push.rules).indent, ∀ c ∈ indent.toList, c = ' ' :=
    fun indent hmem => push.indent indent (Style.mem_of_indent hmem)
  have hlexical : Lexical (push.program.wording push.rules) push.program.pieces :=
    Lexical.ofStyle hkept.1
  obtain ⟨xs, mid, hlays⟩ := ({} : Page).exists_lays hlexical blanks
  obtain ⟨hxs, hmid⟩ := hlays.white hindent hblank
  obtain ⟨ys, last, htext, hlast, hwords, hunmarked⟩ := h mid hmid
  refine ⟨xs ++ ys, last, ?_, hlast, ?_, unmarked_append.mpr ⟨?_, hunmarked⟩⟩
  · rw [spacedText_append, htext, spacedText_before, hlays.text, List.append_assoc,
      ← Page.text_printed]
    rfl
  · rw [List.map_append, hlays.texts, hwords]
    rfl
  · rw [htext]
    refine hlays.unmarked hindent hblank fun x hx => ?_
    cases hopen : push.printed.openEnd with
    | false =>
      refine avoids_closed (Program.last_text hopen ?_) behind
      rw [Program.wording, ← hlays.texts, List.getLast?_map, Option.mem_def.mp hx]
      rfl
    | true =>
      refine avoids_of_head fun c hc => ?_
      obtain rfl := hbehind hopen c hc
      decide

theorem head_texts {openEnd : Bool} (hopen : openEnd = true) (pushes : List Push) :
    ∀ c ∈ (texts openEnd pushes).head?, c = ';' := by
  intro c hc
  cases pushes with
  | nil => cases hc
  | cons push rest =>
    rw [texts, hopen] at hc
    exact (Option.some.inj hc).symm

theorem isUnmarked_texts (openEnd : Bool) (pushes : List Push) {blanks : List Char}
    (hblank : IsWhite blanks) :
    IsUnmarked (blanks ++ texts openEnd pushes) (words openEnd pushes) := by
  induction pushes generalizing openEnd blanks with
  | nil =>
    rw [texts, List.append_nil]
    exact .white hblank
  | cons push rest ih =>
    have hpush {blanks : List Char} (hblank : IsWhite blanks) :=
      push.isUnmarked (fun _ => ih push.printed.openEnd) (fun hopen => head_texts hopen rest) hblank
    cases openEnd with
    | false => exact hpush hblank
    | true => exact (hpush isWhite_nil).semicolon hblank

end Push

/-- Wherever a printed program or a bundle of such programs has the sign of an HTML comment, this
lies inside a string or a regular expression. -/
theorem Bundle.signs_in_literals :
    (∀ push : Push,
      SignsInLiterals push.printed.text.toList (push.program.written push.rules)) ∧
    ∀ pushes : List Push,
      SignsInLiterals (({} : Bundle).addAll pushes).text.toList
        (Push.words false (pushes.filter Push.isWritten)) := by
  constructor
  · intro push
    have halone : IsUnmarked ([] ++ (push.printed.text.toList ++ []))
        (push.program.written push.rules ++ []) :=
      push.isUnmarked (fun blanks hblank => by rw [List.append_nil]; exact .white hblank)
        (fun _ => nofun) isWhite_nil
    rw [List.nil_append, List.append_nil, List.append_nil] at halone
    exact halone.signs
  · intro pushes
    rw [← addAll_filter, text_addAll fun push hpush => (List.mem_filter.mp hpush).2]
    exact (Push.isUnmarked_texts false _ isWhite_nil).signs

/-- Operators beside each other in two programs, and a string that has a sign in it. -/
theorem Bundle.signs_in_literals_two : ∃ pushes : List Push,
    let text := (({} : Bundle).addAll pushes).text
    text = "a-- >b;c< !--d,\"<!--\"" ∧
      SignsInLiterals text.toList
        ["a", "--", ">", "b", ";", "c", "<", "!", "--", "d", ",", "\"<!--\""] := by
  have hparse : ((parse "a-- > b" none).toOption.any fun a =>
      (parse "c < !--d, \"<!--\"" none).toOption.any fun b =>
        ((({} : Bundle).push "a" (a.print [.minify true])).push "b" (b.print [.minify true])).text ==
            "a-- >b;c< !--d,\"<!--\"" &&
          ((a.print [.minify true]).openEnd && !(a.print [.minify true]).text.isEmpty &&
            !(b.print [.minify true]).text.isEmpty) &&
          (a.written [.minify true] == ["a", "--", ">", "b"] &&
            b.written [.minify true] == ["c", "<", "!", "--", "d", ",", "\"<!--\""])) = true := by
    decide +kernel
  obtain ⟨a, ha, hparse⟩ := exists_ok_of_any hparse
  obtain ⟨b, hb, hbundle⟩ := exists_ok_of_any hparse
  simp only [Bool.and_eq_true, beq_iff_eq] at hbundle
  obtain ⟨⟨htext, ⟨hopen, hsome⟩, hsome'⟩, hwords, hwords'⟩ := hbundle
  let pushes : List Push := [⟨"a", _, a, [.minify true], ⟨_, ha⟩, by simp⟩,
    ⟨"b", _, b, [.minify true], ⟨_, hb⟩, by simp⟩]
  have hfilter : pushes.filter Push.isWritten = pushes := by
    simp [pushes, Push.isWritten, Push.printed, hsome, hsome']
  have hsigns := signs_in_literals.2 pushes
  rw [hfilter] at hsigns
  refine ⟨pushes, htext, ?_⟩
  simpa [pushes, Push.words, Push.printed, hopen, hwords, hwords'] using hsigns

end EcmaPress

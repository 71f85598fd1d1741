import EcmaPress.Layout.Printed
import EcmaPress.Proofs.Levels
import EcmaPress.Proofs.Spacing

/-!
# Printed texts read back

The text that pieces leave on a page is read token by token as the pieces that it was made of. So
a program that is printed on lines with spaces for indentation is parsed as itself, and a program
in the compact layout is if no number that ends in a point is written directly before a word.
-/

namespace EcmaPress

open Piece

/-! ### Tokens of pieces -/

/-- The promises hold for the piece in front, unless it writes a name. -/
theorem Piece.link_of_sits {w : Wording} {drop : Bool} {p : Piece} {ps : List Piece} {s : String}
    (h : Sits drop (p :: ps)) (htext : p.text w = some s) (hname : ∀ id, p ≠ .name id) :
    Link s p.shape (ahead drop false ps) := by
  cases p with
  | token text origin shape =>
    obtain rfl : text = s := Option.some.inj htext
    exact h.1
  | name id => exact absurd rfl (hname id)
  | terminator last =>
    obtain ⟨-, rfl⟩ := text_terminator_eq_some.mp htext
    exact link_quiet (by decide) _ _
  | _ => cases htext

theorem Piece.sits_tail {drop : Bool} {p : Piece} {ps : List Piece} (h : Sits drop (p :: ps)) :
    Sits drop ps := by
  cases p with
  | token => exact h.2
  | _ => exact h

/-- A page behind a token: it ends in the text of the token, no line is begun, and the shape is that of
the token. -/
theorem Page.set_readable {style : Style} {renames : Renames} {p : Piece} {t : Token}
    (hread : t.Readable) (htext : p.text (.ofStyle style renames) = some t.text) (page : Page) :
    ∃ before, (page.set style renames p).written = t.text.toList.reverse ++ before ∧
      (page.set style renames p).lineStart = false ∧
      (page.set style renames p).shape = p.shape := by
  obtain ⟨origin, oldName, hset⟩ := page.set_written htext
  obtain ⟨first, more, hcons⟩ := hread.cons
  have hne : t.text.toList ≠ [] := by simp [hcons]
  have hwritten := page.written_token style t.text.toList origin oldName p.shape
  have hstate := page.state_token style hne origin oldName p.shape
  rw [← hset] at hwritten hstate
  refine ⟨(page.lead style first).reverse ++ page.written, ?_, hstate⟩
  rw [hwritten, ← List.append_assoc, ← List.reverse_append]
  simp only [hcons, tokenMarks]

/-- Behind a token white space comes next, or a token that needs no space. -/
theorem Page.onward_lexical {style : Style} {renames : Renames} {ps : List Piece}
    (hlexical : Lexical (.ofStyle style renames) ps) {page : Page} (hline : page.lineStart = false) :
    Onward style (.ofStyle style renames) page false ps (page.allMarks style renames ps) := by
  refine page.onward style renames hline false ps fun q hq s hs => ?_
  obtain ⟨t, hread, rfl, -⟩ := hlexical q hq s hs
  obtain ⟨_, _, hcons⟩ := hread.cons
  simp [hcons]

/-- What is set behind a token parts from it, and so does all that begins in the same way. -/
theorem Piece.Allows.parts {style : Style} {renames : Renames} {p : Piece} {ps : List Piece}
    {t : Token} (hallows : p.Allows t) (hread : t.Readable)
    (htext : p.text (.ofStyle style renames) = some t.text)
    (hlexical : Lexical (.ofStyle style renames) ps) (hsits : Sits style.dropSemicolons (p :: ps))
    (hapart : style.indent = none → endsInPoint t.text = true →
      ∀ next ∈ (texts (.ofStyle style renames) ps).head?, beginsWord next = false) (page : Page)
    {rest : List Char}
    (hrest : rest.head? = ((page.set style renames p).allMarks style renames ps).head?) :
    Lexeme.Parts t.kind t.text.toList rest := by
  obtain ⟨before, hwritten, hline, hshape⟩ := page.set_readable hread htext
  have honward := Page.onward_lexical hlexical hline
  generalize (page.set style renames p).allMarks style renames ps = marks at honward hrest
  cases honward with
  | done =>
    rw [List.head?_eq_none_iff.mp hrest]
    exact Lexeme.parts_nil
  | blank hc =>
    obtain ⟨rest, rfl⟩ := List.head?_eq_some_iff.mp hrest
    exact hread.parts_separator (hc.imp_right .inl) rest
  | @touching spaced q s first more _ hq hqtext hcons hmem hhead hneeds hindent =>
    obtain ⟨rest, rfl⟩ := List.head?_eq_some_iff.mp hrest
    refine hread.parts_touching hwritten ?_ hneeds (fun hkind => ?_) rest
    · rw [hshape]
      exact hallows.1
    · rw [hshape]
      have hlink := link_of_sits hsits htext fun id hid => hkind (hallows.2 id hid)
      rw [hq] at hlink
      refine hlink.touches hqtext (hlexical q hmem s hqtext) hcons fun hends hspaced => ?_
      -- Spaces are only written in a layout with lines. The other one asks more of the texts.
      have hcompact : style.indent = none := by
        rw [← Option.not_isSome_iff_eq_none]
        intro hsome
        rw [hindent hsome] at hspaced
        cases hspaced
      exact hapart hcompact hends s hhead

variable {style : Style} {renames : Renames}

/-- Pieces that leave no marks write no texts. -/
theorem Page.texts_eq_nil {ps : List Piece} (hlexical : Lexical (.ofStyle style renames) ps)
    {page : Page} (hmarks : page.allMarks style renames ps = []) :
    texts (.ofStyle style renames) ps = [] := by
  induction ps generalizing page with
  | nil => rfl
  | cons p ps ih =>
    obtain ⟨hhead, hrest⟩ := List.append_eq_nil_iff.mp hmarks
    cases htext : p.text (.ofStyle style renames) with
    | none =>
      rw [texts_silent htext]
      exact ih (fun q hq => hlexical q (List.mem_cons_of_mem _ hq)) hrest
    | some s =>
      obtain ⟨t, hread, rfl, -⟩ := hlexical p (List.mem_cons_self ..) s htext
      obtain ⟨first, more, hcons⟩ := hread.cons
      simp [marks, htext, hcons, tokenMarks] at hhead

/-! ### Pages as tokens with white space -/

/-- Pieces are laid out as tokens with white space in front of each, from a page on that ends in
white space, and with white space behind the last one. Each token looks like its piece. -/
inductive Page.Lays (style : Style) (renames : Renames) :
    Page → List Char → List Piece → List Spaced → List Char → Prop
  | done {page : Page} {blanks : List Char} : Lays style renames page blanks [] [] blanks
  | silent {page : Page} {blanks last : List Char} {p : Piece} {ps : List Piece}
      {xs : List Spaced} : p.text (.ofStyle style renames) = none →
      Lays style renames (page.set style renames p) (blanks ++ page.marks style renames p) ps xs
        last →
      Lays style renames page blanks (p :: ps) xs last
  | written {page : Page} {blanks last : List Char} {p : Piece} {ps : List Piece}
      {xs : List Spaced} {t : Token} {first : Char} {more : List Char} :
      p.text (.ofStyle style renames) = some t.text → t.text.toList = first :: more →
      t.Readable → p.Allows t → Lays style renames (page.set style renames p) [] ps xs last →
      Lays style renames page blanks (p :: ps) ((blanks ++ page.lead style first, t) :: xs) last

namespace Page

variable {page : Page} {blanks last : List Char} {ps : List Piece} {xs : List Spaced}

theorem exists_lays (hlexical : Lexical (.ofStyle style renames) ps) (page : Page)
    (blanks : List Char) : ∃ xs last, page.Lays style renames blanks ps xs last := by
  induction ps generalizing page blanks with
  | nil => exact ⟨[], blanks, .done⟩
  | cons p ps ih =>
    have hrest := ih fun q hq => hlexical q (List.mem_cons_of_mem _ hq)
    cases htext : p.text (.ofStyle style renames) with
    | none =>
      obtain ⟨xs, last, hlays⟩ := hrest (page.set style renames p) (blanks ++ page.marks style renames p)
      exact ⟨xs, last, .silent htext hlays⟩
    | some s =>
      obtain ⟨t, hread, rfl, hallows⟩ := hlexical p (List.mem_cons_self ..) s htext
      obtain ⟨first, more, hcons⟩ := hread.cons
      obtain ⟨xs, last, hlays⟩ := hrest (page.set style renames p) []
      exact ⟨_, last, .written htext hcons hread hallows hlays⟩

namespace Lays

theorem marks {p : Piece} {t : Token} {first : Char} {more : List Char}
    (htext : p.text (.ofStyle style renames) = some t.text) (hcons : t.text.toList = first :: more)
    (page : Page) : page.marks style renames p = page.lead style first ++ t.text.toList := by
  simp only [Page.marks, htext, hcons, tokenMarks]

/-- The text of the tokens is what the pieces leave on the page. -/
theorem text (h : page.Lays style renames blanks ps xs last) :
    spacedText xs last = blanks ++ page.allMarks style renames ps := by
  induction h with
  | done => rw [spacedText, allMarks, List.append_nil]
  | silent _ _ ih => rw [ih, allMarks, List.append_assoc]
  | written htext hcons _ _ _ ih =>
    rw [spacedText, ih, allMarks, marks htext hcons, List.nil_append, List.append_assoc,
      List.append_assoc]

theorem texts (h : page.Lays style renames blanks ps xs last) :
    (xs.map fun x => x.2.text) = Piece.texts (.ofStyle style renames) ps := by
  induction h with
  | done => rfl
  | silent htext _ ih => rw [ih, texts_silent htext]
  | written htext _ _ _ _ ih => rw [List.map_cons, ih, texts_written htext]

theorem lexical (h : page.Lays style renames blanks ps xs last) :
    Lexical (.ofStyle style renames) ps := by
  induction h with
  | done => exact nofun
  | silent htext _ ih =>
    refine List.forall_mem_cons.mpr ⟨fun s hs => ?_, ih⟩
    rw [htext] at hs
    cases hs
  | @written _ _ _ _ _ _ t _ _ htext _ hread hallows _ ih =>
    refine List.forall_mem_cons.mpr ⟨fun s hs => ⟨t, hread, ?_, hallows⟩, ih⟩
    exact Option.some.inj (htext.symm.trans hs)

/-- With spaces for indentation there is only white space between the tokens. -/
theorem white (h : page.Lays style renames blanks ps xs last)
    (hindent : ∀ indent ∈ style.indent, ∀ c ∈ indent.toList, c = ' ') (hblank : IsWhite blanks) :
    (∀ x ∈ xs, IsWhite x.1 ∧ x.2.Readable) ∧ IsWhite last := by
  induction h with
  | done => exact ⟨nofun, hblank⟩
  | @silent page _ _ _ _ _ htext _ ih =>
    exact ih (hblank.append fun c hc => (page.marks_silent htext c hc).imp_right And.left)
  | @written page _ _ _ _ _ _ first _ _ _ hread _ _ ih =>
    obtain ⟨hwhite, hlast⟩ := ih isWhite_nil
    have hlead : IsWhite (page.lead style first) := fun c hc => .inl (page.lead_blank hindent first c hc)
    exact ⟨List.forall_mem_cons.mpr ⟨⟨hblank.append hlead, hread⟩, hwhite⟩, hlast⟩

/-- Behind a token of a page stands what begins as the further pieces do, or if these leave no token,
the text behind. -/
theorem behind {p : Piece} (hlays : (page.set style renames p).Lays style renames [] ps xs last)
    (rest : List Char) :
    (xs = [] ∧ spacedText xs (last ++ rest) = rest) ∨
      (spacedText xs (last ++ rest)).head? =
        ((page.set style renames p).allMarks style renames ps).head? := by
  rw [spacedText_before, hlays.text, List.nil_append]
  by_cases hmarks : (page.set style renames p).allMarks style renames ps = []
  · have hnone := Page.texts_eq_nil hlays.lexical hmarks
    exact .inl ⟨List.map_eq_nil_iff.mp (hlays.texts.trans hnone), by rw [hmarks, List.nil_append]⟩
  · exact .inr (by rw [List.head?_append, List.head?_eq_some_head hmarks, Option.some_or])

/-- Between the tokens each one parts from what follows it, and so does the last one if it does
from the text behind. -/
theorem parts {p : Piece} {t : Token} {rest : List Char}
    (hlays : (page.set style renames p).Lays style renames [] ps xs last)
    (htext : p.text (.ofStyle style renames) = some t.text) (hread : t.Readable)
    (hallows : p.Allows t) (hsits : Sits style.dropSemicolons (p :: ps))
    (hapart : style.indent = none → endsInPoint t.text = true →
      ∀ next ∈ (Piece.texts (.ofStyle style renames) ps).head?, beginsWord next = false)
    (hlast : xs = [] → Lexeme.Parts t.kind t.text.toList rest) :
    Lexeme.Parts t.kind t.text.toList (spacedText xs (last ++ rest)) := by
  obtain ⟨hnone, hrest⟩ | hhead := hlays.behind rest
  · rw [hrest]
    exact hlast hnone
  · exact hallows.parts hread htext hlays.lexical hsits hapart page hhead

theorem parted (h : page.Lays style renames blanks ps xs last)
    (hindent : ∀ indent ∈ style.indent, ∀ c ∈ indent.toList, c = ' ') (hblank : IsWhite blanks)
    (hsits : Sits style.dropSemicolons ps)
    (hapart : style.indent = none → apart (Piece.texts (.ofStyle style renames) ps) = true)
    {rest : List Char}
    (hlast : ∀ x ∈ xs.getLast?, Lexeme.Parts x.2.kind x.2.text.toList rest) :
    Parted xs (last ++ rest) := by
  induction h with
  | done => trivial
  | @silent page _ _ _ _ _ htext _ ih =>
    rw [texts_silent htext] at hapart
    exact ih (hblank.append fun c hc => (page.marks_silent htext c hc).imp_right And.left)
      (sits_tail hsits) hapart hlast
  | @written page _ _ _ _ xs t first _ htext _ hread hallows hlays ih =>
    rw [texts_written htext] at hapart
    refine ⟨hblank.append fun c hc => .inl (page.lead_blank hindent first c hc), hread, ?_,
      ih isWhite_nil (sits_tail hsits) (fun hcompact => (apart_cons (hapart hcompact)).2)
        fun x hx => hlast x ?_⟩
    · refine hlays.parts htext hread hallows hsits (fun hcompact => (apart_cons (hapart hcompact)).1)
        fun hnone => ?_
      subst hnone
      exact hlast _ rfl
    · rw [List.getLast?_cons, Option.mem_def.mp hx]
      rfl

/-- Tokens that are read as the laid out ones spell the pieces. -/
theorem spells (h : page.Lays style renames blanks ps xs last)
    (hindent : ∀ indent ∈ style.indent, ∀ c ∈ indent.toList, c = ' ')
    (hlegible : Legible (.ofStyle style renames) ps) {broken : Bool}
    (hblank : IsWhite blanks) (hbroken : '\n' ∈ blanks → broken = true) {pos : Position}
    {us : List Token} (hus : us.map Token.unplaced = (spacedTokens pos xs).map Token.unplaced)
    {d d' : Cursor} (hreads : d.Reads us d') :
    (Wording.ofStyle style renames).Spells broken ps d d' := by
  -- The white space in front grows over pieces that leave no token, and is used up by a token.
  induction h generalizing broken pos us d with
  | done =>
    obtain rfl : us = [] := by simpa [spacedTokens] using hus
    cases hreads
    rfl
  | @silent page blanks _ p _ _ htext _ ih =>
    have hsilent := page.marks_silent htext
    rw [Wording.spells_silent htext]
    refine ih (fun q hq => hlegible q (List.mem_cons_of_mem _ hq))
      (hblank.append fun c hc => (hsilent c hc).imp_right And.left) (fun hnewline => ?_) hus hreads
    rw [Bool.or_eq_true]
    refine (List.mem_append.mp hnewline).imp hbroken fun hc => ?_
    obtain hc | ⟨-, rfl⟩ := hsilent _ hc
    · cases hc
    · rfl
  | @written page blanks _ p _ _ t first _ htext _ hread hallows _ ih =>
    obtain ⟨v, hv, hvtext, hadmits⟩ := hlegible p (List.mem_cons_self ..) _ htext
    obtain ⟨u, us, rfl, hu, hus⟩ := List.map_eq_cons_iff.mp hus
    obtain ⟨hkind, hutext, hline⟩ := Token.unplaced_eq.mp hu
    cases hreads with
    | @more _ m _ _ _ htakes hrest =>
      refine (Wording.spells_written htext).mpr ⟨u, m, htakes, hutext, ?_, fun hnewline _ => hbroken ?_,
        ih (fun q hq => hlegible q (List.mem_cons_of_mem _ hq)) isWhite_nil
          (absurd · List.not_mem_nil) hus hrest⟩
      · refine hadmits.congr hv htakes.readable ?_ (hutext.trans hvtext.symm)
        exact ⟨hkind ▸ hallows.1, fun id hid => hkind.trans (hallows.2 id hid)⟩
      · rw [hline] at hnewline
        obtain ⟨c, hc, hterminator⟩ := List.any_eq_true.mp hnewline
        rcases List.mem_append.mp hc with hc | hc
        · rcases hblank c hc with rfl | rfl
          · exact absurd hterminator (by decide)
          · exact hc
        · rw [page.lead_blank hindent first c hc] at hterminator
          exact absurd hterminator (by decide)

end Lays
end Page

/-- The marks of pieces, behind white space, are read as the pieces. -/
theorem Page.spells (hindent : ∀ indent ∈ style.indent, ∀ c ∈ indent.toList, c = ' ')
    {ps : List Piece} (hlegible : Legible (.ofStyle style renames) ps)
    (hsits : Sits style.dropSemicolons ps)
    (hapart : style.indent = none → apart (texts (.ofStyle style renames) ps) = true) (page : Page)
    {input : Input} {blanks : List Char}
    (hchars : input.chars = blanks ++ page.allMarks style renames ps)
    (hblank : ∀ c ∈ blanks, c = ' ' ∨ c = '\n') {broken : Bool}
    (hbroken : '\n' ∈ blanks → broken = true) (past : List Token) :
    ∃ d d', input.next past = .ok d ∧ (Wording.ofStyle style renames).Spells broken ps d d' ∧
      d'.token.isEnd = true := by
  obtain ⟨xs, last, hlays⟩ := page.exists_lays hlegible.lexical blanks
  have hparted := hlays.parted hindent hblank hsits hapart fun _ _ => Lexeme.parts_nil
  rw [← hlays.text, ← List.append_nil last] at hchars
  obtain ⟨d, d', hd, hreads, hend⟩ :=
    hparted.reads_end (hlays.white hindent hblank).2 Input.shows_end hchars past
  exact ⟨d, d', hd, hlays.spells hindent hlegible hblank hbroken rfl hreads, hend⟩

end EcmaPress

import EcmaPress.Proofs.Concatenation
import EcmaPress.Proofs.Segments

/-!
# Where printed tokens stand

The segments of a printed program tell where tokens begin in its text. Read from this text, the
tokens have places of their own. Both ways of counting agree up to the line ends that only source
texts know: where a string goes on behind an escaped line separator or paragraph separator, the
reader has begun a line and the printer has not. Both count in 32 bits, which is exact where these
cover the text.
-/

namespace EcmaPress

open Piece

/-! ### Two ways to count lines -/

/-- A character that ends a line of a source text, but none of a generated text. -/
def isSeparator (c : Char) : Bool :=
  c == '\u2028' || c == '\u2029'

theorem isLineTerminator_eq (c : Char) :
    isLineTerminator c = ((c == '\n' || c == '\r') || isSeparator c) := by
  simp only [isLineTerminator, isSeparator, Bool.or_assoc]

theorem isSeparator_of_break {c : Char} (h : (c == '\n' || c == '\r') = true) :
    isSeparator c = false := by
  rw [Bool.or_eq_true, beq_iff_eq, beq_iff_eq] at h
  rcases h with rfl | rfl <;> decide

/-- A reader ends one line more for every separator. -/
theorem lineEnds_spot (s : Spot) (text : List Char) :
    s.line + lineEnds text = (s.after text).line + text.countP isSeparator := by
  fun_induction Spot.after s text with
  | case1 => rfl
  | case2 s rest ih =>
    rw [lineEnds, List.countP_cons, List.countP_cons]
    simp only [isSeparator] at ih ⊢
    simp at ih ⊢
    omega
  | case3 s c rest hcrlf hc ih =>
    have hline : isLineTerminator c = true := by rw [isLineTerminator_eq, hc, Bool.true_or]
    rw [lineEnds, if_pos hline, List.countP_cons, isSeparator_of_break hc]
    · simp at ih ⊢
      omega
    · exact hcrlf
  | case4 s c rest hcrlf hc ih =>
    rw [Bool.not_eq_true] at hc
    rw [lineEnds, List.countP_cons, isLineTerminator_eq, hc, Bool.false_or]
    · split <;> simp at ih ⊢ <;> omega
    · exact hcrlf

/-- Without separators columns are counted alike. -/
theorem column_spot (s : Spot) {text : List Char} (hnone : text.any isSeparator = false) :
    (s.after text).column =
      if text.any isLineTerminator then sinceLineEnd text else s.column + text.length := by
  have hbreak {c : Char} (hc : isLineTerminator c = true) (rest : List Char) :
      (if rest.any isLineTerminator then sinceLineEnd rest else 0 + rest.length) =
        sinceLineEnd (c :: rest) := by
    cases h : rest.any isLineTerminator with
    | true => rw [if_pos rfl, sinceLineEnd_of_any h]
    | false => rw [if_neg (by decide), sinceLineEnd_terminator hc h, Nat.zero_add]
  fun_induction Spot.after s text with
  | case1 => rfl
  | case2 s rest ih =>
    have hany : ('\n' :: rest).any isLineTerminator = true := rfl
    have hany' : ('\r' :: '\n' :: rest).any isLineTerminator = true := rfl
    rw [ih (by simpa [isSeparator] using hnone), hbreak (by decide : isLineTerminator '\n' = true),
      if_pos hany', sinceLineEnd_of_any hany]
  | case3 s c rest hcrlf hc ih =>
    have hline : isLineTerminator c = true := by rw [isLineTerminator_eq, hc, Bool.true_or]
    rw [List.any_cons, Bool.or_eq_false_iff] at hnone
    rw [ih hnone.2, hbreak hline, List.any_cons, hline, Bool.true_or, if_pos rfl]
  | case4 s c rest hcrlf hc ih =>
    rw [List.any_cons, Bool.or_eq_false_iff] at hnone
    rw [Bool.not_eq_true] at hc
    rw [ih hnone.2, List.any_cons, isLineTerminator_eq, hc, hnone.1, Bool.or_false, Bool.false_or]
    cases h : rest.any isLineTerminator with
    | true => rw [if_pos rfl, if_pos rfl, sinceLineEnd_of_any h]
    | false =>
      rw [if_neg (by decide), if_neg (by decide), List.length_cons]
      dsimp only
      omega

theorem inSource_eq {text : List Char} (hnone : text.any isSeparator = false) :
    Spot.inSource text = ({} : Spot).after text := by
  have hcount : text.countP isSeparator = 0 := by simpa [List.countP_eq_zero] using hnone
  have hline : lineEnds text = (({} : Spot).after text).line := by
    have hspot := lineEnds_spot {} text
    rwa [hcount, Nat.zero_add] at hspot
  have hcolumn : sinceLineEnd text = (({} : Spot).after text).column := by
    rw [column_spot {} hnone]
    cases h : text.any isLineTerminator with
    | true => rw [if_pos rfl]
    | false => rw [sinceLineEnd_of_none h, if_neg (by decide), Nat.zero_add]
  rw [Spot.inSource, hline, hcolumn]

/-- Behind a text without separators a reader counts as a printer does, from one on. -/
theorem Position.start_after_eq {text : List Char} (hnone : text.any isSeparator = false) :
    (start.after text).line = (Place.after {} text).line + 1 ∧
      (start.after text).column = (Place.after {} text).column + 1 := by
  have hspot := inSource_eq hnone
  rw [Position.start_after, Place.start_after, ← hspot]
  exact ⟨UInt32.ofNat_add .., UInt32.ofNat_add ..⟩

/-- Where 32 bits suffice for both ways to count, a reader counts as a printer does, from one on,
exactly if the text has no separators. -/
theorem Position.start_after_iff {text front : List Char} (hfront : front <+: text)
    (hreader : Position.Covers text) (hprinter : Place.Covers text) :
    ((start.after front).line.toNat = (Place.after {} front).line.toNat + 1 ∧
      (start.after front).column.toNat = (Place.after {} front).column.toNat + 1) ↔
      front.any isSeparator = false := by
  obtain ⟨hline, hcolumn⟩ := hreader.exact hfront
  obtain ⟨hline', hcolumn'⟩ := hprinter front hfront
  rw [hline, hcolumn, Place.start_after, Spot.place, UInt32.toNat_ofNat_of_lt' hline',
    UInt32.toNat_ofNat_of_lt' hcolumn']
  constructor
  · rintro ⟨hsame, -⟩
    have hcount : front.countP isSeparator = 0 := by
      have hspot := lineEnds_spot {} front
      dsimp only at hspot
      omega
    simpa [List.countP_eq_zero] using hcount
  · intro hnone
    have hspot := inSource_eq hnone
    rw [← hspot]
    exact ⟨rfl, rfl⟩

/-! ### Tokens of segments -/

/-- A segment and a token stand at the end of the same front part of a text, each in its own way of
counting. -/
def Segment.Meets (text : List Char) (s : Segment) (u : Token) : Prop :=
  ∃ front, front <+: text ∧ s.generated = Place.after {} front ∧ u.pos = Position.start.after front

theorem IsWhite.getLast? {front blanks : List Char} (h : IsWhite blanks)
    (hfront : front.getLast? ≠ some '\r') : (front ++ blanks).getLast? ≠ some '\r' := by
  rw [List.getLast?_append]
  cases hlast : blanks.getLast? with
  | none => exact hfront
  | some c =>
    rw [Option.some_or]
    rcases h c (List.mem_of_getLast? hlast) with rfl | rfl <;> decide

/-- The places of tokens behind a front part of a text are counted from its beginning. -/
theorem spacedTokens_front {front blanks : List Char} (hfront : front.getLast? ≠ some '\r')
    (hwhite : IsWhite blanks) (t : Token) (xs : List Spaced) :
    spacedTokens (Position.start.after front) ((blanks, t) :: xs) =
      { t with
        pos := Position.start.after (front ++ blanks)
        newlineBefore := blanks.any isLineTerminator } ::
        spacedTokens (Position.start.after (front ++ blanks ++ t.text.toList)) xs := by
  have hbehind := hwhite.getLast? hfront
  rw [spacedTokens, Token.behind, Position.after_append _ (.of_not_return hbehind _),
    Position.after_append _ (.of_not_return hfront _)]

/-- The segments of laid out pieces tell where their tokens stand. -/
theorem Page.Lays.meets {style : Style} {renames : Renames} {page : Page} {blanks last : List Char}
    {ps : List Piece} {xs : List Spaced} (h : page.Lays style renames blanks ps xs last)
    (hindent : ∀ indent ∈ style.indent, ∀ c ∈ indent.toList, c = ' ') (hblank : IsWhite blanks)
    (htracked : page.Tracked) {front : List Char} (hfront : front.getLast? ≠ some '\r')
    (hwritten : page.written.reverse = front ++ blanks) :
    ∀ s ∈ (ps.foldl (set style renames) page).segments, s ∈ page.segments ∨
      ∃ u ∈ spacedTokens (Position.start.after front) xs, s.Meets (front ++ spacedText xs last) u := by
  have hlastIndent : ∀ indent ∈ style.indent, indent.toList.getLast? ≠ some '\r' := by
    intro indent hmem hlast
    exact absurd (hindent indent hmem _ (List.mem_of_getLast? hlast)) (by decide)
  induction h generalizing front with
  | done => exact fun s hs => .inl hs
  | @silent page _ _ _ _ _ htext _ ih =>
    obtain ⟨-, htracked', hsegments⟩ := htracked.silent htext
    rw [List.foldl_cons, ← hsegments]
    refine ih (hblank.append fun c hc => (page.marks_silent htext c hc).imp_right And.left) htracked'
      hfront ?_
    rw [written_set, List.reverse_append, List.reverse_reverse, hwritten, List.append_assoc]
  | @written page blanks last p ps xs t first more htext hcons hread _ hlays ih =>
    obtain ⟨origin, oldName, hset, -⟩ := page.set_tied htext
    have hwhite : IsWhite (blanks ++ page.lead style first) :=
      hblank.append fun c hc => .inl (page.lead_blank hindent first c hc)
    obtain ⟨htracked', -, hsegments⟩ :=
      htracked.token hlastIndent (hcons ▸ hread.alone.not_return) origin oldName p.shape
    rw [← hcons, ← hset] at htracked' hsegments
    have hbehind : (front ++ (blanks ++ page.lead style first) ++ t.text.toList).getLast? ≠
        some '\r' := by
      have hlast := hread.alone.not_return
      rw [List.getLast?_append]
      rw [hcons, List.getLast?_cons] at hlast ⊢
      exact hlast
    have hwritten' : (page.set style renames p).written.reverse =
        front ++ (blanks ++ page.lead style first) ++ t.text.toList ++ [] := by
      rw [written_set, List.reverse_append, List.reverse_reverse, hwritten, marks htext hcons]
      simp only [List.append_assoc, List.append_nil]
    have htexts : front ++ spacedText ((blanks ++ page.lead style first, t) :: xs) last =
        front ++ (blanks ++ page.lead style first) ++ t.text.toList ++ spacedText xs last := by
      simp only [spacedText, List.append_assoc]
    intro s hs
    rw [List.foldl_cons] at hs
    rw [htexts, spacedTokens_front hfront hwhite]
    rcases ih isWhite_nil htracked' hbehind hwritten' s hs with hs | ⟨u, hu, hmeets⟩
    · rw [hsegments] at hs
      rcases List.mem_append.mp hs with hs | hs
      · obtain ⟨pos, -, rfl⟩ := Option.map_eq_some_iff.mp (Option.mem_toList.mp hs)
        refine .inr ⟨_, List.mem_cons_self .., front ++ (blanks ++ page.lead style first), ?_, ?_, ?_⟩
        · rw [List.append_assoc]
          exact List.prefix_append ..
        · rw [hwritten, List.append_assoc]
        · rfl
      · exact .inl hs
    · exact .inr ⟨u, List.mem_cons_of_mem _ hu, hmeets⟩

/-! ### Printed programs -/

/-- The tokens of a printed program, read to the end of its text: they are those that were printed,
and each segment tells where one of them begins. A reader gives the same line and column, counted
from one, if there is no separator before the token, also where both have come round to zero, and
only then, if 32 bits cover the text. -/
theorem segments_counted {source : String} {name : Option String} {program : Program}
    (h : parse source name = .ok program) {rules : List Rule}
    (hindent : ∀ indent, .indent indent ∈ rules → ∀ c ∈ indent.toList, c = ' ')
    (hapart : (Style.ofRules rules).indent = none → apart (program.written rules) = true) :
    ∃ c c' us, (Input.ofList (program.print rules).text.toList).next [] = .ok c ∧
      c.Reads us c' ∧ c'.token.isEnd = true ∧ us.map Token.text = program.written rules ∧
      ((∀ reserved ∈ (Style.ofRules rules).reserved, ∀ word ∈ keywords, word ∈ reserved) →
        tokensOf (program.print rules).text = .ok us) ∧
      ∀ s ∈ (program.print rules).segments, ∃ u ∈ us,
        s.generated = Place.after {} ((program.print rules).text.toList.take u.pos.offset) ∧
        (((program.print rules).text.toList.take u.pos.offset).any isSeparator = false →
          u.pos.line = s.generated.line + 1 ∧ u.pos.column = s.generated.column + 1) ∧
        (Position.Covers (program.print rules).text.toList →
          Place.Covers (program.print rules).text.toList →
          ((u.pos.line.toNat = s.generated.line.toNat + 1 ∧
              u.pos.column.toNat = s.generated.column.toNat + 1) ↔
            ((program.print rules).text.toList.take u.pos.offset).any isSeparator = false)) := by
  have hkept := legible_of_parse h
    (w := ⟨Identifier.name, (Style.ofRules rules).dropSemicolons⟩) fun _ => rfl
  have hstyle : ∀ indent ∈ (Style.ofRules rules).indent, ∀ c ∈ indent.toList, c = ' ' :=
    fun indent hmem => hindent indent (Style.mem_of_indent hmem)
  have hlexical : Lexical (program.wording rules) program.pieces := Lexical.ofStyle hkept.1
  obtain ⟨xs, last, hlays⟩ := ({} : Page).exists_lays hlexical []
  have htext : (program.print rules).text.toList = spacedText xs last := by
    rw [hlays.text, List.nil_append]
    exact Page.text_printed ..
  have hparted := hlays.parted hstyle isWhite_nil (hkept.2 _) hapart fun _ _ => Lexeme.parts_nil
  obtain ⟨c, c', hc, hreads, hend⟩ :=
    hparted.reads_end (hlays.white hstyle isWhite_nil).2 Input.shows_end
    (show (Input.ofList (program.print rules).text.toList).chars = _ by
      rw [List.append_nil, ← htext]; rfl) []
  refine ⟨c, c', spacedTokens .start xs, hc, hreads, hend, ?_, fun hkeywords => ?_, fun s hs => ?_⟩
  · rw [text_spacedTokens, hlays.texts]
    rfl
  · have hprintable : Printable program rules := ⟨⟨source, name, h⟩, hindent, hkeywords⟩
    have hspells := hlays.spells hstyle hprintable.legible isWhite_nil (fun _ => (rfl : true = true))
      rfl hreads
    obtain ⟨zs, hzs, -⟩ := hprintable.readsAs_worded hspells hend
    exact tokensOf_eq hc (program_eq_ok.mpr hzs) hreads
  · have hmem : s ∈ (program.pieces.foldl (Page.set (.ofRules rules)
        (program.renames (.ofRules rules))) {}).segments :=
      List.mem_reverse.mp hs
    obtain ⟨u, hu, front, hfront, hgenerated, hpos⟩ := (hlays.meets hstyle isWhite_nil
      Page.tracked_empty (show ([] : List Char).getLast? ≠ some '\r' by decide) rfl s
      hmem).resolve_left List.not_mem_nil
    have htake : (program.print rules).text.toList.take u.pos.offset = front := by
      rw [hpos, Position.start_after, htext]
      exact (List.prefix_iff_eq_take.mp hfront).symm
    rw [← htext] at hfront
    refine ⟨u, hu, by rw [htake, hgenerated], fun hnone => ?_, fun hreader hprinter => ?_⟩
    · rw [htake] at hnone
      rw [hgenerated, hpos]
      exact Position.start_after_eq hnone
    · rw [htake, hgenerated, hpos]
      exact Position.start_after_iff hfront hreader hprinter

/-- The tokens of a compact text in which a string goes on behind an escaped line separator. -/
theorem segments_counted_string : ∃ program us, parse "a = \"b\\\u2028c\"; d" none = .ok program ∧
    (program.print [.minify true]).text = "a=\"b\\\u2028c\";d" ∧
    tokensOf "a=\"b\\\u2028c\";d" = .ok us ∧
    Position.Covers "a=\"b\\\u2028c\";d".toList ∧ Place.Covers "a=\"b\\\u2028c\";d".toList ∧
    ∀ s ∈ (program.print [.minify true]).segments, ∃ u ∈ us,
      s.generated = Place.after {} ("a=\"b\\\u2028c\";d".toList.take u.pos.offset) ∧
      ((u.pos.line.toNat = s.generated.line.toNat + 1 ∧
          u.pos.column.toNat = s.generated.column.toNat + 1) ↔
        ("a=\"b\\\u2028c\";d".toList.take u.pos.offset).any isSeparator = false) := by
  have hparse : ((parse "a = \"b\\\u2028c\"; d" none).toOption.any fun program =>
      (program.print [.minify true]).text == "a=\"b\\\u2028c\";d" &&
        apart (program.written [.minify true])) = true := by
    decide +kernel
  obtain ⟨program, h, hprinted⟩ := exists_ok_of_any hparse
  rw [Bool.and_eq_true, beq_iff_eq] at hprinted
  obtain ⟨htext, hapart⟩ := hprinted
  obtain ⟨-, -, us, -, -, -, -, htokens, hsegments⟩ :=
    segments_counted h (by simp) fun _ => hapart
  rw [htext] at htokens hsegments
  have hreader : Position.Covers "a=\"b\\\u2028c\";d".toList :=
    Position.covers_of_length (by decide)
  have hprinter : Place.Covers "a=\"b\\\u2028c\";d".toList := Place.covers_of_length (by decide)
  refine ⟨program, us, h, htext, htokens nofun, hreader, hprinter, fun s hs => ?_⟩
  obtain ⟨u, hu, hgenerated, -, hcounted⟩ := hsegments s hs
  exact ⟨u, hu, hgenerated, hcounted hreader hprinter⟩

/-- Behind a line separator the segment of a token tells a place at which no token is read. -/
theorem separator_uncounted : ∃ program us, parse "\"a\\\u2028b\";x" none = .ok program ∧
    (program.print [.minify false]).text = "\"a\\\u2028b\";x;" ∧
    tokensOf "\"a\\\u2028b\";x;" = .ok us ∧
    ∃ s ∈ (program.print [.minify false]).segments,
      ∀ u ∈ us, ¬ (u.pos.line.toNat = s.generated.line.toNat + 1 ∧
        u.pos.column.toNat = s.generated.column.toNat + 1) := by
  have hparse : ((parse "\"a\\\u2028b\";x" none).toOption.any fun program =>
      (program.print [.minify false]).text == "\"a\\\u2028b\";x;" &&
        (tokensOf "\"a\\\u2028b\";x;").toOption.any fun us =>
          (program.print [.minify false]).segments.any fun s => us.all fun u =>
            !(u.pos.line.toNat == s.generated.line.toNat + 1 &&
              u.pos.column.toNat == s.generated.column.toNat + 1)) = true := by
    decide +kernel
  obtain ⟨program, h, hprinted⟩ := exists_ok_of_any hparse
  rw [Bool.and_eq_true, beq_iff_eq] at hprinted
  obtain ⟨us, htokens, hsegment⟩ := hprinted.2 |> exists_ok_of_any
  obtain ⟨s, hs, hall⟩ := List.any_eq_true.mp hsegment
  refine ⟨program, us, h, hprinted.1, htokens, s, hs, fun u hu ⟨hline, hcolumn⟩ => ?_⟩
  have hno := List.all_eq_true.mp hall u hu
  simp [hline, hcolumn] at hno

end EcmaPress

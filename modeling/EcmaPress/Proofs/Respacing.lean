import EcmaPress.Proofs.RoundTrip
import EcmaPress.Proofs.Touching

/-!
# Other gaps between the same tokens

What stands between two tokens matters to the parser only in so far as a line ends there. A text in
which some gaps are exchanged for others, which begin with a space and end a line where the old ones
did, has the same tokens: each of them parts from the new gap as it parted from the old one, or from
the token that touches it. So it is parsed as the same program, up to places.
-/

namespace EcmaPress

/-! ### Gaps are skipped -/

namespace Lexeme

theorem blockComment_append {body : List Char} (h : ¬ ['*', '/'] <:+: body ++ ['*'])
    (rest : List Char) : blockComment (body ++ '*' :: '/' :: rest) = some (body.length + 2) := by
  induction body with
  | nil => rfl
  | cons c body ih =>
    rw [List.cons_append, List.infix_cons_iff, not_or] at h
    rw [List.cons_append, blockComment.eq_def]
    split
    · next heq => cases heq
    · next behind heq =>
      -- The comment would end before its end.
      obtain ⟨rfl, hbody⟩ := List.cons.inj heq
      refine absurd ?_ h.1
      cases body with
      | nil => cases hbody
      | cons d body =>
        obtain ⟨rfl, -⟩ := List.cons.inj hbody
        exact ⟨body ++ ['*'], rfl⟩
    · next heq =>
      obtain ⟨rfl, rfl⟩ := List.cons.inj heq
      rw [ih h.2]
      rfl

/-- All of a gap is skipped, if what stands behind it is none. -/
theorem gap_isGap {behind blanks : List Char} (h : IsGap behind blanks)
    (hnone : gap behind = .ok 0) : gap (blanks ++ behind) = .ok blanks.length := by
  have hslash : (isLineTerminator '/' || isBlank '/') = false := by decide
  induction h with
  | done => exact hnone
  | blank hc _ ih =>
    rw [List.cons_append, gap.eq_def]
    simp only [hc, if_true, ih, shift, List.length_cons]
  | @line body rest hbody hend _ ih =>
    have hrun : run (fun c => !isLineTerminator c) (body ++ (rest ++ behind)) = body.length := by
      refine run_append (by simpa using hbody) fun c hc => ?_
      rw [Option.mem_def.mp hc, Option.all_some] at hend
      rw [hend]
      rfl
    rw [List.cons_append, List.cons_append, List.append_assoc, gap.eq_def]
    simp only [hslash, Bool.false_eq_true, if_false, if_true, hrun, List.drop_left, ih, shift,
      List.length_cons, List.length_append]
    exact congrArg Except.ok (by omega)
  | @block body rest hbody _ ih =>
    have hcomment := blockComment_append hbody (rest ++ behind)
    have hdrop :
        (body ++ '*' :: '/' :: (rest ++ behind)).drop (body.length + 2) = rest ++ behind := by
      rw [← List.drop_drop, List.drop_left]
      rfl
    rw [List.cons_append, List.cons_append, List.append_assoc, List.cons_append, List.cons_append,
      gap.eq_def]
    simp only [hslash, Bool.false_eq_true, if_false, if_true, hcomment, hdrop, ih, shift,
      List.length_cons, List.length_append]
    exact congrArg Except.ok (by omega)

end Lexeme

/-- A gap depends on the text behind it by the first character only. -/
theorem IsGap.congr {behind behind' blanks : List Char} (h : IsGap behind blanks)
    (hhead : behind'.head? = behind.head?) : IsGap behind' blanks := by
  induction h with
  | done => exact .done
  | blank hc _ ih => exact .blank hc ih
  | line hbody hend _ ih =>
    refine .line hbody ?_ ih
    rwa [List.head?_append, hhead, ← List.head?_append]
  | block hbody _ ih => exact .block hbody ih

/-! ### Texts with other gaps -/

/-- What may stand in the place of a gap: the gap itself, or white space, line ends and complete
comments that begin with a space and end a line just if the gap did. -/
def Regapped (behind old new : List Char) : Prop :=
  new = old ∨ new.head? = some ' ' ∧ IsGap behind new ∧
    new.any isLineTerminator = old.any isLineTerminator

/-- A text with the tokens that another text has from an offset on, and with gaps in the place of
those between them, before the first one and behind the last one. -/
inductive Respaced (text : List Char) : Nat → List Token → List Char → Prop
  | done {start : Nat} {blanks : List Char} : Regapped [] (text.drop start) blanks →
      Respaced text start [] blanks
  | token {start : Nat} {t : Token} {ts : List Token} {blanks rest : List Char} :
      Regapped (t.text.toList ++ rest) ((text.take t.pos.offset).drop start) blanks →
      Respaced text (t.pos.offset + t.text.length) ts rest →
      Respaced text start (t :: ts) (blanks ++ (t.text.toList ++ rest))

theorem Regapped.newline {behind old new : List Char} (h : Regapped behind old new) :
    new.any isLineTerminator = old.any isLineTerminator := by
  rcases h with rfl | ⟨-, -, h⟩
  · rfl
  · exact h

theorem Regapped.isGap {behind behind' old new : List Char} (h : Regapped behind' old new)
    (hold : IsGap behind old) (hhead : behind'.head? = behind.head?) : IsGap behind' new := by
  rcases h with rfl | ⟨-, h, -⟩
  · exact hold.congr hhead
  · exact h

/-- A tiled text goes on with the gap in front of its next token. -/
theorem Token.Tiles.drop_eq {text : List Char} {start : Nat} {t : Token} (h : t.Tiles text start) :
    text.drop start = (text.take t.pos.offset).drop start ++ text.drop t.pos.offset := by
  have hlen : (text.take t.pos.offset).length = min t.pos.offset text.length := List.length_take
  by_cases hstart : start ≤ (text.take t.pos.offset).length
  · rw [← List.drop_append_of_le_length hstart, List.take_append_drop]
  · have hordered := h.ordered
    rw [List.drop_of_length_le (by omega), List.drop_of_length_le (by omega),
      List.drop_of_length_le (by omega)]
    rfl

/-- The text with other gaps begins as the old one did, unless it begins with a space. -/
theorem Respaced.head {text new : List Char} {start : Nat} {ts : List Token}
    (h : Respaced text start ts new) (hread : ∀ t ∈ ts, t.Readable)
    (htiling : Tiling text start ts) : new.head? = some ' ' ∨ new.head? = (text.drop start).head? := by
  cases h with
  | done hgap => exact hgap.elim (fun heq => .inr (congrArg _ heq)) fun hnew => .inl hnew.1
  | @token _ t ts blanks rest hgap _ =>
    cases htiling with
    | token htiles _ =>
    rcases hgap with rfl | ⟨hspace, -⟩
    · right
      obtain ⟨first, more, hcons⟩ := (hread t List.mem_cons_self).cons
      obtain ⟨behind, hbehind⟩ := htiles.slice
      rw [htiles.drop_eq, ← hbehind]
      simp only [List.head?_append, hcons, List.head?_cons, Option.some_or]
    · left
      rw [List.head?_append, hspace]
      rfl

/-- Behind a token stands what it parts from, in the old text and in the new one. -/
theorem Cursor.Takes.parts {c m : Cursor} {t : Token} (h : c.Takes t m) :
    Lexeme.Parts t.kind t.text.toList ((c.input.drop t.text.length).chars) := by
  obtain ⟨r, hoffer, hnext⟩ := Cursor.takes_iff.mp h
  rw [hoffer.next] at hnext
  obtain ⟨k, kind, n, hgap, hscan, -⟩ := Cursor.next_eq_ok.mp hnext
  cases hoffer with
  | plain hkind hend =>
    rcases c.stands.lexeme with hlexeme | ⟨hregex, -⟩
    · rw [← c.stands.take]
      exact Lexeme.parts_of_scan hlexeme c.stands.gapless hgap hscan
    · exact absurd hregex hkind
  | regex _ hr =>
    obtain ⟨n, hregex, htoken, -⟩ := Cursor.asRegex_eq_ok.mp hr
    have hlen : r.token.text.length = n := by
      rw [htoken, Input.length_tokenOf (Lexeme.regex_le hregex)]
    have hkind : r.token.kind = .regex := by rw [htoken]; rfl
    rw [hkind, hlen]
    exact Lexeme.ends_regex hregex

/-- A token that is taken tiles the text, and the text goes on behind it. -/
theorem Cursor.Takes.tiles {text front : List Char} {input : Input} {past : List Token}
    {c m : Cursor} {t : Token} (h : c.Takes t m) (hnext : input.next past = .ok c)
    (hbehind : input.Behind text front) :
    t.Tiles text front.length ∧ ∃ front', (c.input.drop t.text.length).Behind text front' ∧
      front'.length = t.pos.offset + t.text.length ∧
      (c.input.drop t.text.length).next (t :: c.past) = .ok m := by
  obtain ⟨n, kind, k, -, -, htoken, hinput, -⟩ := Cursor.next_eq_ok.mp hnext
  cases h with
  | plain _ _ hm =>
    have hpos : c.token.pos = c.input.pos := by rw [htoken, hinput]; rfl
    obtain ⟨htiles, ⟨front', hfront', hlen⟩, -⟩ := hbehind.read hnext rfl hpos rfl
    exact ⟨htiles, front', hfront', hlen, hm⟩
  | @regex r _ _ hr hm =>
    obtain ⟨l, -, hrtoken, hrinput, hrpast⟩ := Cursor.asRegex_eq_ok.mp hr
    have hpos : r.token.pos = c.input.pos := by rw [hrtoken]; rfl
    obtain ⟨htiles, ⟨front', hfront', hlen⟩, -⟩ :=
      hbehind.read hnext hrinput hpos (by rw [hrtoken]; rfl)
    rw [Cursor.next, hrinput, hrpast] at hm
    exact ⟨htiles, front', hrinput ▸ hfront', hlen, hm⟩

/-! ### The same tokens -/

/-- Behind the same gap as before or another one, the end of a text is the end of the other one. -/
theorem Regapped.next_end {input input' : Input} {past : List Token} {c : Cursor}
    (hnext : input.next past = .ok c) (hend : c.token.isEnd = true)
    (h : Regapped [] input.chars input'.chars) (past' : List Token) :
    ∃ d, input'.next past' = .ok d ∧ d.token.unplaced = c.token.unplaced := by
  obtain ⟨n, kind, k, hgap, hscan, htoken, -⟩ := Cursor.next_eq_ok.mp hnext
  obtain rfl : kind = .endOfText := by simpa [htoken, Input.tokenOf, Token.isEnd] using hend
  have hrest : input.chars.drop n = [] := Lexeme.scan_end hscan
  have hfront : input.chars.take n = input.chars := by
    rw [← List.append_nil (input.chars.take n), ← hrest, List.take_append_drop]
  have hold : IsGap [] input.chars := by
    have hall := Lexeme.isGap_take hgap
    rwa [hrest, hfront] at hall
  have hempty : Lexeme.gap [] = .ok 0 := by rw [Lexeme.gap]
  have hgap' := Lexeme.gap_isGap (h.isGap hold rfl) hempty
  rw [List.append_nil] at hgap'
  have hscan' : Lexeme.scan (input'.drop input'.chars.length).chars = .ok (.endOfText, 0) := by
    simp [Input.drop, Lexeme.scan]
  obtain ⟨d, hd, -, hdtoken, -⟩ := Cursor.exists_next hgap' hscan' past'
  refine ⟨d, hd, ?_⟩
  have hline := h.newline
  rw [hdtoken, htoken, Token.unplaced_eq, hfront, List.take_length, hline]
  refine ⟨rfl, ?_, rfl⟩
  have hnothing : (input.drop n).chars = [] := hrest
  simp only [Input.tokenOf, hnothing, List.take_zero, List.take_nil]

/-- A token parts from the text with other gaps as it parts from the old one. -/
theorem Cursor.Takes.parts_respaced {text front new : List Char} {c m : Cursor} {t : Token}
    {ts : List Token} (h : c.Takes t m) (hbehind : (c.input.drop t.text.length).Behind text front)
    (hread : ∀ t ∈ ts, t.Readable) (htiling : Tiling text front.length ts)
    (hrespaced : Respaced text front.length ts new) :
    Lexeme.Parts t.kind t.text.toList new := by
  rcases hrespaced.head hread htiling with hspace | hhead
  · obtain ⟨more, rfl⟩ := List.head?_eq_some_iff.mp hspace
    exact h.readable.parts_separator (.inl rfl) more
  · rw [hbehind.split, List.drop_left] at hhead
    exact h.parts.congr hhead

/-- The tokens of a text are read from every text that has other gaps between them. -/
theorem Respaced.reads {text front new : List Char} {input input' : Input} {past : List Token}
    {c c' : Cursor} {ts : List Token} (hreads : c.Reads ts c') (hend : c'.token.isEnd = true)
    (hnext : input.next past = .ok c) (hbehind : input.Behind text front)
    (h : Respaced text front.length ts new) (hchars : input'.chars = new) (past' : List Token) :
    ∃ d us d', input'.next past' = .ok d ∧ d.Reads us d' ∧
      us.map Token.unplaced = ts.map Token.unplaced ∧ d'.token.unplaced = c'.token.unplaced := by
  induction hreads generalizing front new input input' past past' with
  | done =>
    cases h with
    | done hgap =>
      rw [← hchars, hbehind.split, List.drop_left] at hgap
      obtain ⟨d, hd, hsame⟩ := Regapped.next_end hnext hend hgap past'
      exact ⟨d, [], d, hd, .done, rfl, hsame⟩
  | @more c m c' t ts htake hreads ih =>
    cases h with
    | @token _ _ _ blanks rest hgap hrest =>
    have hread := htake.readable
    obtain ⟨htiles, front', hbehind', hlen, hm⟩ := htake.tiles hnext hbehind
    rw [← hlen] at hrest
    have htiling := ((hreads.lexes hm).tiling_behind hbehind').1
    have hparts := htake.parts_respaced hbehind' hreads.readable htiling hrest
    have hfront : (t.text.toList ++ rest).head? = (text.drop t.pos.offset).head? := by
      obtain ⟨first, more, hcons⟩ := hread.cons
      obtain ⟨behind, hslice⟩ := htiles.slice
      rw [← hslice, hcons]
      rfl
    have hgap' := Lexeme.gap_isGap (hgap.isGap htiles.gap hfront) (hread.gapless hparts)
    obtain ⟨d, r, hd, hoffer, hnext'⟩ := hread.read hchars (hchars ▸ hgap') hparts past'
    have hchars' : (input'.drop blanks.length).chars = t.text.toList ++ rest := by
      simp [Input.drop, hchars]
    obtain ⟨e, us, d', he, hreads', hsame, hlast⟩ :=
      ih hend hm hbehind' hrest (Input.chars_behind hchars') (t.behind input'.pos blanks :: past')
    refine ⟨d, t.behind input'.pos blanks :: us, d', hd,
      .more (Cursor.takes_iff.mpr ⟨r, hoffer, hnext'.trans he⟩) hreads', ?_, hlast⟩
    rw [List.map_cons, List.map_cons, hsame, Token.unplaced_eq.mpr]
    exact ⟨rfl, rfl, hgap.newline.trans htiles.newline.symm⟩

/-! ### The same program -/

/-- Comments and white space do not change what is parsed: a text with the same tokens and other
gaps, which end a line where the old ones did, is parsed as the same program, up to places. -/
theorem parse_respaced {source : String} {name : Option String} {program : Program}
    (h : parse source name = .ok program) :
    ∃ ts, tokensOf source = .ok ts ∧
      ∀ other : String, Respaced source.toList 0 ts other.toList →
        ∃ copy, parse other name = .ok copy ∧ copy.unplaced = program.unplaced := by
  obtain ⟨c, c', hnext, hprogram⟩ := parse_eq_ok.mp h
  obtain ⟨ts, hreads, -⟩ := (ProgramEcho.program hprogram).traces
  have hend := (ProgramEcho.program hprogram).isEnd
  refine ⟨ts, tokensOf_eq hnext hprogram hreads, fun other hrespaced => ?_⟩
  have hchars : (Input.ofList other.toList).chars = other.toList := rfl
  obtain ⟨d, us, d', hd, hreads', hsame, hlast⟩ :=
    Respaced.reads hreads hend hnext (.start source.toList) hrespaced hchars []
  obtain ⟨ts', hreads'', hmirror⟩ :=
    Grammar.mirrors_program c (Cursor.next_kind hnext) program c' hprogram
  obtain rfl := hreads.unique hreads''
  have htoken := hreads.same_of_reads hreads' hsame hlast
  obtain ⟨copy, hcopy, hunplaced⟩ := (hmirror d us htoken hsame).1 d' hreads' hlast
  exact ⟨copy, parse_eq_ok.mpr ⟨d, d', hd, hcopy⟩, hunplaced⟩

/-- Comments on both sides of a sign and of a regular expression, and behind the latter the end of
the line that keeps `++` from it. -/
theorem parse_respaced_regex : ∃ program, parse "x=/b/\n++c" none = .ok program ∧
    ∃ copy, parse "x /* = */ =/b/ // d\n ++c" none = .ok copy ∧
      copy.unplaced = program.unplaced := by
  have hparse : ((parse "x=/b/\n++c" none).toOption.any fun _ => true) = true := by decide +kernel
  have hread : ((tokensOf "x=/b/\n++c").toOption.any fun ts =>
      ts == [⟨.name, "x", ⟨0, 1, 1⟩, false⟩, ⟨.punct, "=", ⟨1, 1, 2⟩, false⟩,
        ⟨.regex, "/b/", ⟨2, 1, 3⟩, false⟩, ⟨.punct, "++", ⟨6, 2, 1⟩, true⟩,
        ⟨.name, "c", ⟨8, 2, 3⟩, false⟩]) = true := by
    decide +kernel
  obtain ⟨program, h, -⟩ := exists_ok_of_any hparse
  obtain ⟨ts, htokens, hcopy⟩ := parse_respaced h
  obtain ⟨ts', htokens', hts⟩ := exists_ok_of_any hread
  obtain rfl : ts = ts' := Except.ok.inj (htokens.symm.trans htokens')
  obtain rfl := beq_iff_eq.mp hts
  refine ⟨program, h, hcopy _ ?_⟩
  have hblock : IsGap "=/b/ ".toList " /* = */ ".toList :=
    .blank rfl (@IsGap.block _ " = ".toList _ (by decide) (.blank rfl .done))
  have hline : IsGap "++c".toList " // d\n ".toList :=
    .blank rfl (@IsGap.line _ " d".toList _ rfl rfl (.blank rfl (.blank rfl .done)))
  refine @Respaced.token _ _ _ _ [] _ (.inl rfl) ?_
  refine .token (.inr ⟨rfl, hblock.congr rfl, rfl⟩) ?_
  refine @Respaced.token _ _ _ _ [] _ (.inl rfl) ?_
  refine .token (.inr ⟨rfl, hline.congr rfl, rfl⟩) ?_
  exact @Respaced.token _ _ _ _ [] _ (.inl rfl) (.done (.inl rfl))

end EcmaPress

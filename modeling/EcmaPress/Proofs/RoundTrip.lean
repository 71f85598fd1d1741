import EcmaPress.Proofs.Fusion
import EcmaPress.Proofs.Relabelled

/-!
# Round trips

A program that is printed without new names and parsed again is the same program, up to places.
On lines this holds of every program. In the compact layout it holds exactly if no number that
ends in a point is written directly before a word, as `3.` before `in`: the space between the two
is not written, and the text is no longer one of the language.

The tokens that are printed are those of the source, but for semicolons and commas that mean
nothing.
-/

namespace EcmaPress

open Piece

/-! ### The tokens of a text -/

/-- The tokens of a source text, in which the parser tells the slashes from the regular
expressions. -/
def tokensOf (text : String) : Except SyntaxError (List Token) := do
  let c ← (Input.ofList text.toList).next []
  let (_, c') ← Grammar.program c
  return c'.past.reverse

theorem tokensOf_eq {text : String} {c c' : Cursor} {program : Program} {ts : List Token}
    (hnext : (Input.ofList text.toList).next [] = .ok c)
    (hprogram : Grammar.program c = .ok (program, c')) (hreads : c.Reads ts c') :
    tokensOf text = .ok ts := by
  obtain ⟨-, -, -, -, -, -, -, hpast⟩ := Cursor.next_eq_ok.mp hnext
  have htokens : c'.past.reverse = ts := by rw [hreads.past, hpast]; simp
  simp only [tokensOf, hnext, bind, Except.bind, hprogram, pure, Except.pure, htokens]

/-! ### The tokens that are printed -/

namespace Program

/-- The texts of the tokens that a printer writes by rules, in order. -/
def written (program : Program) (rules : List Rule) : List String :=
  let style := Style.ofRules rules
  texts (.ofStyle style (program.renames style)) program.pieces

end Program

/-- A text that is made of the texts of tokens, with spaces, line ends and indentation before,
between and behind them. -/
inductive Woven (style : Style) : List Char → List String → Prop
  | done : Woven style [] []
  | blank {c : Char} {text : List Char} {tokens : List String} : c = ' ' ∨ c = '\n' →
      Woven style text tokens → Woven style (c :: text) tokens
  | indentation {indent : String} {text : List Char} {tokens : List String} :
      style.indent = some indent → Woven style text tokens →
      Woven style (indent.toList ++ text) tokens
  | token {token : String} {text : List Char} {tokens : List String} : token ≠ "" →
      Woven style text tokens → Woven style (token.toList ++ text) (token :: tokens)

namespace Page

variable {style : Style} {renames : Renames}

theorem woven_lead {text : List Char} {tokens : List String} (h : Woven style text tokens)
    (page : Page) (first : Char) : Woven style (page.lead style first ++ text) tokens := by
  have hspace : Woven style
      ((if (page.beginLine style).needsSpace first then [' '] else []) ++ text) tokens := by
    split
    · exact .blank (.inl rfl) h
    · exact h
  rw [lead, List.append_assoc]
  split
  · cases hstyle : style.indent with
    | none =>
      have hflat : (List.replicate page.depth ((none : Option String).getD "").toList).flatten = [] := by
        simp [show "".toList = [] from rfl]
      rw [hflat]
      exact hspace
    | some indent =>
      induction page.depth with
      | zero => exact hspace
      | succ depth ih =>
        rw [List.replicate_succ, List.flatten_cons, List.append_assoc]
        exact .indentation hstyle ih
  · exact hspace

/-- What is printed is made of the texts that pieces write. -/
theorem woven_lexical (page : Page) {ps : List Piece} (hlexical : Lexical (.ofStyle style renames) ps) :
    Woven style (page.allMarks style renames ps) (texts (.ofStyle style renames) ps) := by
  induction ps generalizing page with
  | nil => exact .done
  | cons p ps ih =>
    have hrest := ih (page.set style renames p) fun q hq => hlexical q (List.mem_cons_of_mem _ hq)
    rw [allMarks]
    cases htext : p.text (.ofStyle style renames) with
    | some s =>
      obtain ⟨t, hread, rfl, -⟩ := hlexical p (List.mem_cons_self ..) s htext
      obtain ⟨first, more, hcons⟩ := hread.cons
      have hne : t.text ≠ "" := by
        intro heq
        rw [heq] at hcons
        cases hcons
      rw [texts_written htext]
      simp only [marks, htext, hcons, tokenMarks]
      rw [← hcons, List.append_assoc]
      exact woven_lead (.token hne hrest) page first
    | none =>
      rw [texts_silent htext]
      have hblank : ∀ c ∈ page.marks style renames p, c = ' ' ∨ c = '\n' := fun c hc =>
        (page.marks_silent htext c hc).imp_right And.left
      generalize page.marks style renames p = blanks at hblank
      induction blanks with
      | nil => exact hrest
      | cons c blanks ih' =>
        exact .blank (hblank c (List.mem_cons_self ..))
          (ih' fun d hd => hblank d (List.mem_cons_of_mem _ hd))

/-- So is what can be read back as the pieces that it was made of. -/
theorem woven (page : Page) {ps : List Piece} (hlegible : Legible (.ofStyle style renames) ps) :
    Woven style (page.allMarks style renames ps) (texts (.ofStyle style renames) ps) :=
  page.woven_lexical hlegible.lexical

end Page

/-! ### Printing without new names -/

/-- Without new names every identifier keeps its name. -/
theorem Wording.name_ofStyle (program : Program) {style : Style} (h : style.reserved = none)
    (id : Identifier) : (Wording.ofStyle style (program.renames style)).name id = id.name := by
  simp [Wording.ofStyle, Program.renames, h]

/-- Names are exchanged only if a rule asks for it. -/
theorem Style.reserved_ofRules {rules : List Rule} (h : ∀ reserved, .obfuscate reserved ∉ rules) :
    (Style.ofRules rules).reserved = none := by
  have hadd : ∀ style : Style, style.reserved = none → (rules.foldl add style).reserved = none := by
    induction rules with
    | nil => exact fun style hstyle => hstyle
    | cons rule rules ih =>
      intro style hstyle
      refine ih (fun reserved hmem => h reserved (List.mem_cons_of_mem _ hmem)) _ ?_
      cases rule with
      | obfuscate reserved => exact absurd (List.mem_cons_self ..) (h reserved)
      | minify | indent => exact hstyle
  exact hadd {} rfl

/-- An indentation is used only if a rule asks for it. -/
theorem Style.mem_of_indent {rules : List Rule} {indent : String}
    (h : (Style.ofRules rules).indent = some indent) : .indent indent ∈ rules := by
  have hadd : ∀ style : Style, (rules.foldl add style).indent = some indent →
      style.indent = some indent ∨ .indent indent ∈ rules := by
    clear h
    induction rules with
    | nil => exact fun style h => .inl h
    | cons rule rules ih =>
      intro style h
      rcases ih _ h with hstyle | hmem
      · cases rule with
        | indent text =>
          obtain rfl := Option.some.inj hstyle
          exact .inr (List.mem_cons_self ..)
        | minify | obfuscate => exact .inl hstyle
      · exact .inr (List.mem_cons_of_mem _ hmem)
  exact (hadd {} h).resolve_left nofun

section

variable {source : String} {name : Option String} {program : Program}

/-- What a parsed program promises of its pieces. -/
theorem legible_of_parse (h : parse source name = .ok program) {w : Wording}
    (hname : ∀ id, w.name id = id.name) :
    Legible w program.pieces ∧ ∀ drop, Sits drop program.pieces := by
  obtain ⟨c, c', -, hprogram⟩ := parse_eq_ok.mp h
  have hecho := ProgramEcho.program hprogram
  obtain ⟨ts, hreads, haligned⟩ := hecho.traces
  exact ⟨haligned.legible hreads.readable hname, hecho.sits⟩

/-- A text from which the parser reads a program back, and of which the tokens are known. -/
def ReadsBack (text : String) (program : Program) (tokens : List String) : Prop :=
  ∀ name, ∃ copy ts, parse text name = .ok copy ∧ copy.unplaced = program.unplaced ∧
    tokensOf text = .ok ts ∧ ts.map Token.text = tokens

/-- A style that keeps names and writes legible pieces apart is read back. -/
theorem readsBack_of_apart (h : parse source name = .ok program) {rules : List Rule}
    (hreserved : (Style.ofRules rules).reserved = none)
    (hindent : ∀ indent ∈ (Style.ofRules rules).indent, ∀ c ∈ indent.toList, c = ' ')
    (hapart : (Style.ofRules rules).indent = none → apart (program.written rules) = true) :
    ReadsBack (program.print rules).text program (program.written rules) := by
  have hname := Wording.name_ofStyle program hreserved
  obtain ⟨hlegible, hsits⟩ := legible_of_parse h hname
  have hchars : (Input.ofList (program.print rules).text.toList).chars =
      [] ++ ({} : Page).allMarks (.ofRules rules) (program.renames (.ofRules rules))
        program.pieces :=
    Page.text_printed ..
  obtain ⟨d, d', hnext, hspells, hend⟩ := Page.spells hindent hlegible (hsits _) hapart {} hchars
    (fun c hc => nomatch hc) (fun hc => (nomatch hc : false = true)) []
  obtain ⟨c, c', -, hprogram⟩ := parse_eq_ok.mp h
  obtain ⟨copy, hcopy, hunplaced⟩ := (ProgramEcho.program hprogram).again _ _ d d' hspells hend
  obtain ⟨ts, hreads, htexts⟩ := hspells.reads
  have hwording : (Wording.ofStyle (.ofRules rules) (program.renames (.ofRules rules))).name =
      Identifier.name := funext hname
  refine fun name => ⟨copy, ts, parse_eq_ok.mpr ⟨d, d', hnext, hcopy⟩, ?_,
    tokensOf_eq hnext hcopy hreads, htexts⟩
  rw [hunplaced, hwording]
  rfl

/-- A program that is printed on lines, with spaces for indentation, is read back. -/
theorem readsBack_indented (h : parse source name = .ok program) (dropSemicolons : Bool)
    (width : Nat) :
    ReadsBack
      (program.print [.minify dropSemicolons, .indent (String.ofList (List.replicate width ' '))]).text
      program
      (program.written
        [.minify dropSemicolons, .indent (String.ofList (List.replicate width ' '))]) := by
  refine readsBack_of_apart h rfl ?_ nofun
  rintro _ ⟨⟩ c hc
  rw [String.toList_ofList] at hc
  exact List.eq_of_mem_replicate hc

theorem readsBack_indented_if :
    ∃ program, parse "if (a) b; else c // d" none = .ok program ∧
      ReadsBack (program.print [.minify true, .indent (String.ofList (List.replicate 2 ' '))]).text
        program
        (program.written [.minify true, .indent (String.ofList (List.replicate 2 ' '))]) := by
  have hparse : ((parse "if (a) b; else c // d" none).toOption.any fun _ => true) = true := by
    decide +kernel
  obtain ⟨program, h, -⟩ := exists_ok_of_any hparse
  exact ⟨program, h, readsBack_indented h true 2⟩

/-- A program in the compact layout is read back exactly if no number in it runs into a word. Its
text is parsed in no other case. -/
theorem readsBack_compact (h : parse source name = .ok program) (dropSemicolons : Bool) :
    (apart (program.written [.minify dropSemicolons]) = true ∧
      ReadsBack (program.print [.minify dropSemicolons]).text program
        (program.written [.minify dropSemicolons])) ∨
    (apart (program.written [.minify dropSemicolons]) = false ∧
      ∀ name, ∃ e, parse (program.print [.minify dropSemicolons]).text name = .error e) := by
  cases hapart : apart (program.written [.minify dropSemicolons]) with
  | true => exact .inl ⟨rfl, readsBack_of_apart h rfl nofun fun _ => hapart⟩
  | false =>
    refine .inr ⟨rfl, fun name => ?_⟩
    cases hcopy : parse (program.print [.minify dropSemicolons]).text name with
    | error e => exact ⟨e, rfl⟩
    | ok copy =>
      have hname := Wording.name_ofStyle program
        (rfl : (Style.ofRules [.minify dropSemicolons]).reserved = none)
      have hlegible := (legible_of_parse h hname).1
      have hno := apart_of_parse h rfl hlegible (Page.text_printed ..) hcopy
      exact absurd (hapart.symm.trans hno) (by decide)

theorem readsBack_compact_if :
    ∃ program, parse "if (a) b; else c // d" none = .ok program ∧
      ReadsBack (program.print [.minify true]).text program (program.written [.minify true]) := by
  have hparse : ((parse "if (a) b; else c // d" none).toOption.any fun program =>
      apart (program.written [.minify true])) = true := by decide +kernel
  obtain ⟨program, h, hapart⟩ := exists_ok_of_any hparse
  refine ⟨program, h, ((readsBack_compact h true).resolve_right fun hno => ?_).2⟩
  exact absurd (hno.1.symm.trans hapart) (by decide)

/-- The space that is missing behind a number that ends in a point. -/
theorem point_fused : ∃ program, parse "3. in x" none = .ok program ∧
    (program.print [.minify false]).text = "3.in x;" ∧ ∃ e, parse "3.in x;" none = .error e := by
  have hparse : ((parse "3. in x" none).toOption.any fun program =>
      (program.print [.minify false]).text == "3.in x;") = true := by decide +kernel
  have hfails : (parse "3.in x;" none).isOk = false := by decide +kernel
  obtain ⟨program, h, htext⟩ := exists_ok_of_any hparse
  refine ⟨program, h, beq_iff_eq.mp htext, ?_⟩
  cases hcopy : parse "3.in x;" none with
  | error e => exact ⟨e, rfl⟩
  | ok copy => rw [hcopy] at hfails; cases hfails

/-- The tokens that are printed are those of the source, up to semicolons and to commas that stand
directly before a closing bracket or brace. -/
theorem essential_written (h : parse source name = .ok program) {rules : List Rule}
    (hrules : ∀ reserved, .obfuscate reserved ∉ rules) :
    Woven (.ofRules rules) (program.print rules).text.toList (program.written rules) ∧
    ∃ ts, tokensOf source = .ok ts ∧
      essential (ts.map Token.text) = essential (program.written rules) := by
  have hname := Wording.name_ofStyle program (Style.reserved_ofRules hrules)
  constructor
  · rw [Program.print, Page.text_printed]
    exact Page.woven {} (legible_of_parse h hname).1
  · obtain ⟨c, c', hnext, hprogram⟩ := parse_eq_ok.mp h
    obtain ⟨ts, hreads, haligned⟩ := (ProgramEcho.program hprogram).traces
    exact ⟨ts, tokensOf_eq hnext hprogram hreads, haligned.essential_eq hname⟩

theorem essential_written_hole : ∃ program, parse "a = [b, , /;/.c, ]" none = .ok program ∧
    ∃ ts, tokensOf "a = [b, , /;/.c, ]" = .ok ts ∧
      essential (ts.map Token.text) = essential (program.written [.indent "  ", .minify true]) := by
  have hparse : ((parse "a = [b, , /;/.c, ]" none).toOption.any fun _ => true) = true := by
    decide +kernel
  obtain ⟨program, h, -⟩ := exists_ok_of_any hparse
  exact ⟨program, h, (essential_written h (by simp)).2⟩

end
end EcmaPress

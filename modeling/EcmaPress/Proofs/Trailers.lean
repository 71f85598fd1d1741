import EcmaPress.Proofs.Courses
import EcmaPress.Proofs.Idempotence

/-!
# Trailers

Behind its bundle an output names the address of the source map, in a comment on a line of its own.
The comment is all there is, and the output is parsed as the bundle, if the address has no line
end. An address that holds the map itself never has one. That of a file has one where the way to
the file leads through a name with a line end, and then the rest of the address is read as code.
-/

namespace EcmaPress

/-! ### Addresses -/

namespace Base64

theorem digit_lineless (n : Nat) : isLineTerminator (digit n) = false := by
  by_cases hn : n < 64
  · exact (by decide +kernel : ∀ n < 64, isLineTerminator (digit n) = false) n hn
  · have hdigit : digit n = '/' := by
      unfold digit
      rw [if_neg (by omega), if_neg (by omega), if_neg (by omega), if_neg (by omega)]
    rw [hdigit]
    rfl

theorem encode_lineless (bytes : List UInt8) : (encode bytes).any isLineTerminator = false := by
  have hfill : isLineTerminator '=' = false := rfl
  fun_induction encode bytes with
  | case1 => rfl
  | case2 | case3 => simp [digit_lineless, hfill]
  | case4 a b c rest n ih => simp [digit_lineless, ih]

end Base64

theorem SourceMap.toDataUrl_lineless (map : SourceMap) :
    map.toDataUrl.toList.any isLineTerminator = false := by
  have hscheme : "data:application/json;base64,".toList.any isLineTerminator = false := by
    decide +kernel
  change (("data:application/json;base64," ++ String.ofList _).toList.any isLineTerminator) = false
  rw [String.toList_append, List.any_append, hscheme, String.toList_ofList, Base64.encode_lineless]
  rfl

namespace Setting

variable {setting : Setting}

/-- Only the address of a file may have a line end. -/
theorem address_lineless (hurl : ∀ url ∈ setting.plan.mapUrl?, url.toList.any isLineTerminator = false)
    (bundle : Bundle) : ∀ url ∈ setting.address? bundle, url.toList.any isLineTerminator = false := by
  intro url haddress
  unfold address? at haddress
  split at haddress
  · cases haddress
  · exact hurl url haddress
  · obtain rfl := Option.some.inj haddress
    exact SourceMap.toDataUrl_lineless _

end Setting

/-! ### The comment -/

/-- A comment takes the rest of its line. -/
theorem Lexeme.gap_lineComment {line text : List Char} (h : line.any isLineTerminator = false) {n : Nat}
    (hrest : gap ('\n' :: text) = .ok n) :
    gap ('/' :: '/' :: (line ++ '\n' :: text)) = .ok (n + (line.length + 2)) := by
  have hclass : (isLineTerminator '/' || isBlank '/') = false := by decide
  have hrun : run (fun d => !isLineTerminator d) (line ++ '\n' :: text) = line.length :=
    run_append (by simpa using h) (ends_cons.mpr rfl)
  rw [gap.eq_def]
  simp only [hclass, Bool.false_eq_true, if_false, if_true, hrun, List.drop_left, hrest, shift]

/-- A trailer begins a line. -/
theorem Setting.toList_trailer (url : String) : (trailer url).toList =
    '\n' :: '/' :: '/' :: ("# sourceMappingURL=".toList ++ url.toList ++ ['\n']) := by
  change ("\n//# sourceMappingURL=" ++ url ++ "\n").toList = _
  simp [String.toList_append]

/-- The line of a trailer is nothing but a comment. -/
theorem Setting.trailer_shows {url : String} (h : url.toList.any isLineTerminator = false) :
    Input.Shows (trailer url).toList fun d => d.token.isEnd = true := by
  intro input blanks past hchars hblank
  have hbreak : IsWhite ['\n'] := fun c hc => .inr (List.mem_singleton.mp hc)
  have hwhite : IsWhite (blanks ++ ['\n']) := IsWhite.append hblank hbreak
  have hline : ("# sourceMappingURL=".toList ++ url.toList).any isLineTerminator = false := by
    have hsign : "# sourceMappingURL=".toList.any isLineTerminator = false := by decide +kernel
    rw [List.any_append, hsign, h]
    rfl
  have hnewline : Lexeme.gap ['\n'] = .ok 1 :=
    Lexeme.gap_blanks hbreak.isGap (by rw [Lexeme.gap])
  have htext : input.chars = (blanks ++ ['\n']) ++
      '/' :: '/' :: ("# sourceMappingURL=".toList ++ url.toList ++ ['\n']) := by
    rw [hchars, toList_trailer, List.append_assoc blanks]
    rfl
  refine Input.next_end ?_ past
  rw [htext, Lexeme.gap_append hwhite.isGap (Lexeme.gap_lineComment hline hnewline)]
  simp only [List.length_append, List.length_cons, List.length_nil]
  exact congrArg Except.ok (by omega)

/-! ### Outputs -/

namespace Setting

variable {setting : Setting}

/-- A bundle is that of its printed programs. -/
theorem bundled_eq_ok {bundle bundle' : Bundle} {sources : List (InputStream × String)}
    (h : setting.bundled bundle sources = .ok bundle') :
    ∃ parts : List Part, (∀ part ∈ parts, Printable part.program part.rules) ∧
      parts.foldl (fun bundle part => bundle.push part.source part.printed) bundle = bundle' := by
  induction sources generalizing bundle with
  | nil => exact ⟨[], nofun, Except.ok.inj h⟩
  | cons source rest ih =>
    obtain ⟨input, text⟩ := source
    cases hparse : parse text (some input.name) with
    | error e => simp [bundled, hparse, bind, Except.bind] at h
    | ok program =>
      simp only [bundled, hparse, bind, Except.bind] at h
      obtain ⟨parts, hprintable, hparts⟩ := ih h
      refine ⟨⟨setting.plan.sourceName input, program, setting.options.rules, program⟩ :: parts,
        List.forall_mem_cons.mpr ⟨setting.options.printable hparse, hprintable⟩, hparts⟩

end Setting

/-- Two texts are parsed as the same program, up to places, or neither of them is parsed. -/
def ParsedAlike (text text' : String) : Prop :=
  ∀ name, (parse text name).toOption.map Program.unplaced =
    (parse text' name).toOption.map Program.unplaced

/-- White space behind the text of parts does not change how it is parsed. -/
theorem Part.parsedAlike {parts : List Part}
    (hprintable : ∀ part ∈ parts, Printable part.program part.rules) {text text' : String}
    {tail : List Char} (htext : text.toList = joined parts)
    (htext' : text'.toList = joined parts ++ tail) (htail : IsTail tail)
    (hend : Input.Shows tail fun d => d.token.isEnd = true) : ParsedAlike text' text := by
  intro name
  rw [← List.append_nil (joined parts)] at htext
  by_cases hapart : ∀ part ∈ parts, part.IsApart
  · obtain ⟨whole, hwhole, hbody⟩ :=
      parse_joined hprintable hapart (.inl rfl) Input.shows_end htext name
    obtain ⟨whole', hwhole', hbody'⟩ := parse_joined hprintable hapart htail hend htext' name
    rw [hwhole, hwhole']
    exact congrArg some (hbody'.trans hbody.symm)
  · obtain ⟨e, he⟩ := parse_joined_error hprintable hapart (.inl rfl) htext name
    obtain ⟨e', he'⟩ := parse_joined_error hprintable hapart htail htext' name
    rw [he, he']
    rfl

/-- The trailer does not change what an output is parsed as, unless the address of a file with the
source map has a line end. -/
theorem Setting.output_parsedAlike (options : Options) (directory : Path)
    (standard : Option Charset) {sources : List (InputStream × String)} {bundle : Bundle}
    (hbundle : (ofOptions options directory standard).bundled {} sources = .ok bundle)
    (hurl : ∀ url ∈ (Plan.ofOptions options directory).mapUrl?,
      url.toList.any isLineTerminator = false) :
    ParsedAlike ((ofOptions options directory standard).output bundle) bundle.text := by
  obtain ⟨parts, hprintable, hparts⟩ := bundled_eq_ok hbundle
  obtain rfl : Bundle.ofParts parts = bundle := hparts
  have htext := Bundle.text_ofParts hprintable
  cases haddress : (ofOptions options directory standard).address? (.ofParts parts) with
  | none =>
    refine Part.parsedAlike hprintable htext ?_ (.inl rfl) Input.shows_end
    rw [output, haddress, Option.map_none, Option.getD_none, String.append_empty, htext,
      List.append_nil]
  | some url =>
    refine Part.parsedAlike hprintable htext ?_ (.inr ⟨'\n', _, toList_trailer url, .inr rfl⟩)
      (trailer_shows (address_lineless hurl _ url haddress))
    rw [output, haddress, Option.map_some, Option.getD_some, String.toList_append, htext]

theorem Setting.output_parsedAlike_two : ∃ setting bundle, setting = ofOptions
      { inputs := ["a.js", "b.js"], output := some "out/c.js", sourceMap := .file "m" } "/"
      none ∧
    setting.bundled {} [(.file "/a.js", "a()"), (.file "/b.js", "b // c")] = .ok bundle ∧
    setting.output bundle = "a();b;\n//# sourceMappingURL=../m\n" ∧
    ParsedAlike (setting.output bundle) bundle.text := by
  have hbundled : ((ofOptions
      { inputs := ["a.js", "b.js"], output := some "out/c.js", sourceMap := .file "m" } "/"
      none).bundled {} [(.file "/a.js", "a()"), (.file "/b.js", "b // c")]).toOption.any
      (fun bundle => (ofOptions
        { inputs := ["a.js", "b.js"], output := some "out/c.js", sourceMap := .file "m" } "/"
        none).output bundle == "a();b;\n//# sourceMappingURL=../m\n") = true := by
    decide +kernel
  obtain ⟨bundle, hbundle, houtput⟩ := exists_ok_of_any hbundled
  exact ⟨_, bundle, rfl, hbundle, beq_iff_eq.mp houtput,
    output_parsedAlike _ _ _ hbundle (by decide +kernel)⟩

/-- An address with a line end goes on as code. -/
theorem Setting.address_escapes : ∃ setting bundle, setting = ofOptions
      { inputs := ["in.js"], output := some "a\nb.js", sourceMap := .auto } "/" none ∧
    setting.bundled {} [(.file "/in.js", "x")] = .ok bundle ∧ bundle.text = "x;" ∧
    setting.output bundle = "x;\n//# sourceMappingURL=a\nb.js.map\n" ∧
    ¬ ParsedAlike (setting.output bundle) bundle.text := by
  have hbundled : ((ofOptions
      { inputs := ["in.js"], output := some "a\nb.js", sourceMap := .auto } "/"
      none).bundled {} [(.file "/in.js", "x")]).toOption.any (fun bundle =>
        bundle.text == "x;" && (ofOptions
          { inputs := ["in.js"], output := some "a\nb.js", sourceMap := .auto } "/"
          none).output bundle == "x;\n//# sourceMappingURL=a\nb.js.map\n") = true := by
    decide +kernel
  have hlengths : ((parse "x;\n//# sourceMappingURL=a\nb.js.map\n" none).toOption.map
      fun program => program.unplaced.body.length) ≠
        (parse "x;" none).toOption.map fun program => program.unplaced.body.length := by
    decide +kernel
  obtain ⟨bundle, hbundle, htexts⟩ := exists_ok_of_any hbundled
  rw [Bool.and_eq_true, beq_iff_eq, beq_iff_eq] at htexts
  refine ⟨_, bundle, rfl, hbundle, htexts.1, htexts.2, fun halike => hlengths ?_⟩
  rw [htexts.1, htexts.2] at halike
  have hbodies := congrArg (Option.map fun program => program.body.length) (halike none)
  rwa [Option.map_map, Option.map_map] at hbodies

end EcmaPress

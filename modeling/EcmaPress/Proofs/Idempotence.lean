import EcmaPress.Proofs.Concatenation
import EcmaPress.Proofs.Rebinding
import EcmaPress.Run.Press

/-!
# Pressing twice

A pressed text is pressed to itself. The second run reads the program of the first one, in the words
that the first one chose, and finds for every name the name that it has already: what a scope must
avoid is called the same in both runs, and so the names that are free for the scope are those that
it binds. Two things stand against it, and both come from elsewhere: a text in which a number runs
into a word cannot be read, and a declaration that is hidden in a handler lies in another scope when
it has the new name of the parameter.
-/

namespace EcmaPress

open BindingEvent

/-! ### New names of new names -/

namespace Scoping

/-- Where names stay as they are, so do the scopes, and the occurrences but for their places. -/
theorem ofEvents_relabel {r : Relabeling} (hname : ∀ id, r.name id = id.name)
    (events : List BindingEvent) :
    ofEvents (events.map (BindingEvent.relabel r)) =
      { ofEvents events with
        occurrences := (ofEvents events).occurrences.map fun o => ⟨r.identifier o.id, o.chain⟩ } := by
  let moved : Scoping → Scoping := fun s =>
    { s with occurrences := s.occurrences.map fun o => ⟨r.identifier o.id, o.chain⟩ }
  have hid : ∀ id, (r.identifier id).name = id.name := hname
  have hbind : ∀ (s : Scoping) chain name, (moved s).bindIn chain name = moved (s.bindIn chain name) := by
    intro s chain name
    cases chain <;> rfl
  have hoccur : ∀ (s : Scoping) id, (moved s).occur (r.identifier id) = moved (s.occur id) := by
    intro s id
    simp [moved, occur]
  have hstep : ∀ (s : Scoping) e, (moved s).step (e.relabel r) = moved (s.step e) := by
    intro s e
    cases e with
    | enter | leave | lookUp => rfl
    | use id => exact hoccur s id
    | bind id =>
      change ((moved s).bindIn s.chain (r.identifier id).name).occur _ = _
      rw [hid, hbind, hoccur]
      rfl
    | hoist id =>
      change ((moved s).bindIn s.variableChain (r.identifier id).name).occur _ = _
      rw [hid, hbind, hoccur]
      rfl
  have hrun : ∀ (events : List BindingEvent) (s : Scoping),
      (events.map (BindingEvent.relabel r)).foldl step (moved s) = moved (events.foldl step s) := by
    intro events
    induction events with
    | nil => exact fun _ => rfl
    | cons e events ih => exact fun s => by rw [List.map_cons, List.foldl_cons, hstep, ih]; rfl
  simpa [moved, ofEvents] using hrun events {}

/-- The names that a scope must avoid, occurrence by occurrence. -/
theorem avoided_eq (s : Scoping) (reserved : List String) (n : Nat) : s.avoided reserved n =
    (s.occurrences.toList.filter fun o =>
      (o.chain.takeWhile fun i => some i != s.binding o).contains n).map (s.called reserved) := by
  rw [avoided, outer, resolved, List.filter_map, List.map_map, List.map_map]
  rfl

/-- The second walk has the scopes of the first one with their new names, and may look up more names
by their spelling. -/
structure Renamed (reserved : List String) (s t : Scoping) : Prop where
  bound : ∀ n, t.bound n = (s.bound n).map (newName (s.tables reserved) (some n))
  occurrences : t.occurrences.toList.map (fun o => (o.id.name, o.chain)) =
    s.occurrences.toList.map fun o => (s.called reserved o, o.chain)
  dynamic : ∀ n, s.isDynamic n = true → t.isDynamic n = true

namespace Renamed

variable {reserved : List String} {s t : Scoping} (h : Renamed reserved s t) (hs : s.Sound)

include h hs

/-- If the scopes before a scope keep their names, what it must avoid is called as before. -/
theorem avoided {n : Nat} (hsound : t.Sound)
    (hkeep : ∀ m < n, ∀ x ∈ t.bound m, newName (t.tables reserved) (some m) x = x) :
    t.avoided reserved n = s.avoided reserved n := by
  -- Both lists are picked from the names and chains that occur in the second walk.
  let inside : String × List Nat → Bool := fun (name, chain) =>
    (chain.takeWhile fun i => some i != t.resolve chain name).contains n
  have hsecond : t.avoided reserved n =
      ((t.occurrences.toList.map fun o => (o.id.name, o.chain)).filter inside).map Prod.fst := by
    rw [avoided_eq, List.filter_map, List.map_map]
    refine List.map_congr_left fun o ho => ?_
    obtain ⟨hmem, hin⟩ := List.mem_filter.mp ho
    rw [Array.mem_toList_iff] at hmem
    change t.called reserved o = o.id.name
    cases hbinding : t.binding o with
    | none => rw [called, hbinding, newName]
    | some m =>
      rw [called, hbinding]
      refine hkeep m ?_ _ (mem_bound_of_binding hbinding)
      exact (mem_takeWhile_find (hsound.outward o hmem) (List.contains_iff_mem.mp hin)).2 m hbinding
  have hfirst : s.avoided reserved n =
      ((s.occurrences.toList.map fun o => (s.called reserved o, o.chain)).filter inside).map
        Prod.fst := by
    rw [avoided_eq, List.filter_map, List.map_map]
    refine congrArg (List.map (s.called reserved)) (List.filter_congr fun o ho => ?_)
    have hresolve := hs.resolve_called h.bound (Array.mem_toList_iff.mp ho)
    simp only [inside, Function.comp_apply, hresolve]
  rw [hsecond, hfirst, h.occurrences]

/-- No name is changed a second time. -/
theorem newName_eq (hsound : t.Sound) (n : Nat) :
    ∀ x ∈ t.bound n, newName (t.tables reserved) (some n) x = x := by
  induction n using Nat.strongRecOn with
  | ind n ih =>
    intro x hx
    obtain ⟨scope, hscope, -⟩ := mem_bound.mp hx
    cases hfixed : scope.isFixed with
    | true => exact newName_fixed hscope hfixed x
    | false =>
      obtain ⟨y, hy, -⟩ := List.mem_map.mp (h.bound n ▸ hx)
      obtain ⟨old, hold, -⟩ := mem_bound.mp hy
      have hloose : old.isFixed = false := by
        rw [← Bool.not_eq_true, Scope.isFixed, Bool.or_eq_true, not_or] at hfixed ⊢
        refine ⟨fun hkind => hfixed.1 ?_, fun hdynamic => hfixed.2 ?_⟩
        · rw [Option.isNone_iff_eq_none, hs.global n old hold, ← hsound.global n scope hscope] at hkind
          exact Option.isNone_iff_eq_none.mpr hkind
        · have hexposed := h.dynamic n (by rw [isDynamic, hold]; exact hdynamic)
          rwa [isDynamic, hscope] at hexposed
      have hfresh : t.bound n = s.fresh reserved n := by
        rw [h.bound, map_newName hs.outwardly hold hloose (hs.nodup n old hold)]
      have hagain : t.fresh reserved n = t.bound n := by
        rw [fresh, h.avoided hs hsound ih, hfresh, fresh, length_freshNames]
      have hmap : (t.bound n).map (newName (t.tables reserved) (some n)) = t.fresh reserved n :=
        map_newName hsound.outwardly hscope hfixed (hsound.nodup n scope hscope)
      rw [hagain] at hmap
      exact List.map_inj_left.mp (hmap.trans (List.map_id _).symm) x hx

/-- Every occurrence is called by the name that it has. -/
theorem called_eq (hsound : t.Sound) (o : Occurrence) : t.called reserved o = o.id.name := by
  cases hbinding : t.binding o with
  | none => rw [called, hbinding, newName]
  | some n =>
    rw [called, hbinding]
    exact h.newName_eq hs hsound n _ (mem_bound_of_binding hbinding)

end Renamed
end Scoping

/-! ### Pages with the same text -/

namespace Page

/-- Two pages that look the same, whatever their tokens are tied to. -/
structure Twin (page page' : Page) : Prop extends Alike page page' where
  depth : page.depth = page'.depth

variable {style : Style} {page page' : Page}

theorem Twin.raw (h : page.Twin page') (text : List Char) : (page.raw text).Twin (page'.raw text) :=
  ⟨⟨congrArg (text.reverse ++ ·) h.written, h.lineStart, h.shape⟩, h.depth⟩

theorem Twin.beginLine (h : page.Twin page') :
    (page.beginLine style).Twin (page'.beginLine style) := by
  have hraws : ∀ (indents : List (List Char)) {page page' : Page}, page.Twin page' →
      (indents.foldl Page.raw page).Twin (indents.foldl Page.raw page') := by
    intro indents
    induction indents with
    | nil => exact fun h => h
    | cons indent indents ih => exact fun h => ih (h.raw indent)
  unfold Page.beginLine
  rw [← h.lineStart]
  split
  · have hbegun : Twin { page with lineStart := false } { page' with lineStart := false } :=
      ⟨⟨h.written, rfl, h.shape⟩, h.depth⟩
    cases style.indent with
    | none => exact hbegun
    | some indent =>
      have hindents : List.replicate page'.depth indent.toList =
          List.replicate page.depth indent.toList := by rw [h.depth]
      dsimp only
      rw [hindents]
      exact hraws _ hbegun
  · exact h

theorem Twin.token (h : page.Twin page') (text : List Char) (origin origin' : Option Position)
    (oldName oldName' : Option String) (shape : Shape) :
    (page.token style text origin oldName shape).Twin
      (page'.token style text origin' oldName' shape) := by
  cases text with
  | nil => exact h
  | cons first more =>
    have hbegun : (page.beginLine style).Twin (page'.beginLine style) := h.beginLine
    have hspaced : Twin
        (if (page.beginLine style).needsSpace first then (page.beginLine style).raw [' ']
          else page.beginLine style)
        (if (page'.beginLine style).needsSpace first then (page'.beginLine style).raw [' ']
          else page'.beginLine style) := by
      rw [hbegun.needsSpace]
      split
      · exact hbegun.raw [' ']
      · exact hbegun
    have hset := hspaced.raw (first :: more)
    exact ⟨⟨hset.written, hset.lineStart, rfl⟩, hset.depth⟩

/-- A piece looks the same under the name that is printed for it. -/
theorem Twin.set (h : page.Twin page') {renames : Renames} {name : Identifier → String} {p : Piece}
    (hname : ∀ id ∈ p.id?, renames[id.pos.offset]?.getD id.name = name id) :
    (page.set style renames p).Twin (page'.set style ∅ (p.relabel (.unplaced name))) := by
  cases p with
  | token text origin shape => exact h.token ..
  | name id =>
    have hsame := hname id rfl
    have hplain : page'.set style ∅ ((Piece.name id).relabel (.unplaced name)) =
        page'.token style (name id).toList (some .start) none .plain := by
      rw [Piece.relabel_name]
      rfl
    rw [hplain, ← hsame]
    simp only [Page.set]
    cases renames[id.pos.offset]? with
    | none => exact h.token ..
    | some new => exact h.token ..
  | terminator last =>
    simp only [Piece.relabel_terminator, Page.set]
    split
    · exact ⟨⟨h.written, h.lineStart, h.shape⟩, h.depth⟩
    · exact h.token ..
  | space =>
    simp only [Piece.relabel_space, Page.set]
    split
    · exact h.raw [' ']
    · exact h
  | newline =>
    simp only [Piece.relabel_newline, Page.set]
    split
    · exact ⟨⟨(h.raw ['\n']).written, rfl, h.shape⟩, h.depth⟩
    · exact h
  | indent => exact ⟨⟨h.written, h.lineStart, h.shape⟩, congrArg (· + 1) h.depth⟩
  | dedent => exact ⟨⟨h.written, h.lineStart, h.shape⟩, congrArg (· - 1) h.depth⟩

/-- Pieces are printed as the text that they would be under the names that are printed for them. -/
theorem text_unplaced {renames : Renames} {name : Identifier → String} {ps : List Piece}
    (h : ∀ id ∈ Piece.ids ps, renames[id.pos.offset]?.getD id.name = name id) :
    (ofPieces style renames ps).printed.text =
      (ofPieces style ∅ (ps.map (Piece.relabel (.unplaced name)))).printed.text := by
  have hrun : ∀ (ps : List Piece) {page page' : Page}, page.Twin page' →
      (∀ id ∈ Piece.ids ps, renames[id.pos.offset]?.getD id.name = name id) →
      (ps.foldl (set style renames) page).Twin
        ((ps.map (Piece.relabel (.unplaced name))).foldl (set style ∅) page') := by
    intro ps
    induction ps with
    | nil => exact fun h _ => h
    | cons p ps ih =>
      intro page page' htwin h
      refine ih (htwin.set fun id hid => h id ?_) fun id hid => h id ?_
      · exact List.mem_filterMap.mpr ⟨p, List.mem_cons_self .., hid⟩
      · obtain ⟨q, hq, hid⟩ := List.mem_filterMap.mp hid
        exact List.mem_filterMap.mpr ⟨q, List.mem_cons_of_mem _ hq, hid⟩
  have htwin := hrun ps (⟨⟨rfl, rfl, rfl⟩, rfl⟩ : Twin {} {}) h
  exact congrArg (fun written => String.ofList written.reverse) htwin.written

end Page

/-! ### The second run -/

namespace Options

variable (options : Options)

/-- The style of the rules of a run. -/
theorem style_rules : Style.ofRules options.rules =
    ⟨options.indent, options.dropsSemicolons, if options.obfuscates then some reservedWords else none⟩ := by
  unfold rules
  cases options.indent with
  | none => cases options.obfuscates <;> simp [Style.ofRules, Style.add]
  | some indent => cases options.obfuscates <;> simp [Style.ofRules, Style.add]

variable {source : String} {name : Option String} {program : Program}

/-- Whatever a run prints is printed in lines with spaces, and by no name that is a keyword. -/
theorem printable (h : parse source name = .ok program) : Printable program options.rules where
  parsed := ⟨source, name, h⟩
  indent indent hindent := by
    have hmem : some indent = options.indent := by
      unfold rules at hindent
      cases hopt : options.indent <;> rw [hopt] at hindent <;> cases options.obfuscates <;>
        simp_all
    rw [Options.indent] at hmem
    split at hmem
    · obtain rfl := Option.some.inj hmem
      intro c hc
      rw [String.toList_ofList] at hc
      exact List.eq_of_mem_replicate hc
    · cases hmem
  keywords := by
    rw [style_rules]
    intro reserved hreserved word hword
    split at hreserved
    · obtain rfl := Option.some.inj hreserved
      exact List.mem_mergeSort.mpr (List.mem_append_left _ hword)
    · cases hreserved

end Options

namespace Program

variable {source text : String} {name : Option String} {program copy : Program}

/-- The names that a parsed program prints are those that occur in it. -/
theorem mem_occurrences_of_pieces (h : parse source name = .ok program) {id : Identifier}
    (hid : id ∈ Piece.ids program.pieces) : ∃ o ∈ program.scoping.occurrences, o.id = id := by
  obtain ⟨c, c', -, hprogram⟩ := parse_eq_ok.mp h
  have hevents := (Program.tally _ _ _ hprogram).mem_iff.mpr hid
  rw [← Scoping.map_id_occurrences] at hevents
  obtain ⟨o, ho, rfl⟩ := List.mem_map.mp hevents
  exact ⟨o, Array.mem_toList_iff.mp ho, rfl⟩

/-- A program that differs from a parsed one by its new names and by places. -/
theorem renamed_of_copy {reserved : List String} (h : parse source name = .ok program)
    (hhidden : program.hidden = [])
    (hcopy : copy.unplaced.body = relabelStatements
      (.unplaced fun id => (program.obfuscate reserved)[id.pos.offset]?.getD id.name) program.body) :
    Scoping.Renamed reserved program.scoping copy.scoping := by
  let r : Relabeling := .unplaced fun id => (program.obfuscate reserved)[id.pos.offset]?.getD id.name
  have hcalled : ∀ o ∈ program.scoping.occurrences,
      r.name o.id = program.scoping.called reserved o := fun _ => getElem?_obfuscate h reserved
  have hfollows := Scoping.follows_renamed reserved r hhidden hcalled (statements_reworded r program.body)
  have hevents : statementsEvents (relabelStatements r program.body) =
      copy.events.map (BindingEvent.relabel (.unplaced Identifier.name)) := by
    rw [← hcopy]
    exact (statements_reworded (.unplaced Identifier.name) copy.body).eq_map fun _ => rfl
  rw [hevents, Scoping.ofEvents_relabel fun _ => rfl] at hfollows
  refine ⟨hfollows.bound, ?_, fun n hdynamic => ?_⟩
  · have hoccurrences := congrArg
      (fun os => os.toList.map fun o : Occurrence => (o.id.name, o.chain)) hfollows.occurrences
    simp only [Array.toList_map, List.map_map] at hoccurrences
    refine Eq.trans hoccurrences (List.map_congr_left fun o ho => ?_)
    exact Prod.ext (hcalled o (Array.mem_toList_iff.mp ho)) rfl
  · obtain ⟨scope, hscope, hexposed⟩ := (Option.any_eq_true ..).mp hdynamic
    obtain ⟨scope', hscope', -, -, hkept⟩ := hfollows.scopes n scope hscope
    exact (Option.any_eq_true ..).mpr ⟨scope', hscope', hkept hexposed⟩

/-- A copy of a program that differs by its new names and by places is printed as the program. -/
theorem print_copy {options : Options} (h : parse source name = .ok program)
    (hhidden : options.obfuscates = true → program.hidden = [])
    (hparse : parse text none = .ok copy)
    (hcopy : copy.unplaced.body =
      relabelStatements (.unplaced (program.wording options.rules).name) program.body) :
    (copy.print options.rules).text = (program.print options.rules).text := by
  have hkeep : ∀ id ∈ Piece.ids copy.pieces,
      (copy.renames (.ofRules options.rules))[id.pos.offset]?.getD id.name = id.name := by
    intro id hid
    obtain ⟨o, ho, rfl⟩ := mem_occurrences_of_pieces hparse hid
    cases hobfuscates : options.obfuscates with
    | false =>
      have hreserved : (Style.ofRules options.rules).reserved = none := by
        rw [Options.style_rules, hobfuscates]
        rfl
      exact Wording.name_ofStyle copy hreserved o.id
    | true =>
      have hreserved : (Style.ofRules options.rules).reserved = some reservedWords := by
        rw [Options.style_rules, hobfuscates]
        rfl
      have hnames (program : Program) :
          program.renames (.ofRules options.rules) = program.obfuscate reservedWords := by
        rw [renames, hreserved]
      have hcopy' : copy.unplaced.body = relabelStatements (.unplaced fun id =>
          (program.obfuscate reservedWords)[id.pos.offset]?.getD id.name) program.body := by
        rw [hcopy, wording, hnames program]
        rfl
      rw [hnames copy, getElem?_obfuscate hparse reservedWords ho]
      exact (renamed_of_copy h (hhidden hobfuscates) hcopy').called_eq (.ofEvents program.events)
        (.ofEvents copy.events) o
  have hfirst := @Page.text_unplaced (.ofRules options.rules) (program.renames (.ofRules options.rules))
    (program.wording options.rules).name program.pieces fun _ _ => rfl
  refine (Page.text_unplaced hkeep).trans (Eq.trans ?_ hfirst.symm)
  rw [← pieces_relabel, ← pieces_relabel, ← hcopy]
  rfl

end Program

theorem pressText_eq_ok {source text : String} {options : Options} :
    pressText source options = .ok text ↔
      ∃ program, parse source none = .ok program ∧ (program.print options.rules).text = text := by
  rw [pressText]
  cases parse source none with
  | error e => simp [Except.map]
  | ok program => simp [Except.map]

/-- What a run has pressed is pressed to itself by a second run with the same options, unless the
second run cannot read it: a number runs into a word in the compact layout. -/
theorem pressText_again {source text : String} {options : Options} {program : Program}
    (hparse : parse source none = .ok program) (h : pressText source options = .ok text)
    (hhidden : options.obfuscates = true → program.hidden = []) :
    ((options.pretty = true ∨ apart (program.written options.rules) = true) ∧
      pressText text options = .ok text) ∨
    (options.pretty = false ∧ apart (program.written options.rules) = false ∧
      ∃ e, pressText text options = .error e) := by
  have hprintable := options.printable hparse
  have hindent : (Style.ofRules options.rules).indent = none ↔ options.pretty = false := by
    rw [Options.style_rules]
    cases hpretty : options.pretty <;> simp [Options.indent, hpretty]
  obtain ⟨program', hparse', rfl⟩ := pressText_eq_ok.mp h
  obtain rfl := Except.ok.inj (hparse.symm.trans hparse')
  by_cases hapart : options.pretty = true ∨ apart (program.written options.rules) = true
  · obtain ⟨copy, hcopy, hbody⟩ := hprintable.parse_worded (fun hcompact =>
      hapart.resolve_left (by rw [hindent.mp hcompact]; exact Bool.false_ne_true)) none
    refine .inl ⟨hapart, ?_⟩
    rw [pressText, hcopy]
    exact congrArg Except.ok
      (Program.print_copy hparse hhidden hcopy hbody)
  · rw [not_or, Bool.not_eq_true, Bool.not_eq_true] at hapart
    refine .inr ⟨hapart.1, hapart.2, ?_⟩
    cases hcopy : parse (program.print options.rules).text none with
    | error e => exact ⟨e, by rw [pressText, hcopy]; rfl⟩
    | ok copy =>
      have hno := hprintable.apart hcopy (hindent.mpr hapart.1)
      exact absurd (hapart.2.symm.trans hno) (by decide)

/-- What mangling prints of a program. -/
theorem Program.print_mangled (program : Program) :
    (program.print (Options.rules { mangle := true })).text =
      (Page.ofPieces (.ofRules (Options.rules { mangle := true }))
        (program.obfuscate (keywords ++ strictKeywords)) program.pieces).printed.text := by
  rw [← obfuscate_reservedWords]
  rfl

theorem pressText_again_catch :
    pressText "function f(x) \x7b try \x7b var y; \x7d catch (x) \x7b y = x; \x7d return g(x, y); \x7d"
        { mangle := true } =
      .ok "function f(a)\x7btry\x7bvar b\x7dcatch(a)\x7bb=a\x7dreturn g(a,b)\x7d" ∧
    pressText "function f(a)\x7btry\x7bvar b\x7dcatch(a)\x7bb=a\x7dreturn g(a,b)\x7d" { mangle := true } =
      .ok "function f(a)\x7btry\x7bvar b\x7dcatch(a)\x7bb=a\x7dreturn g(a,b)\x7d" := by
  have hparse : ((parse
      "function f(x) \x7b try \x7b var y; \x7d catch (x) \x7b y = x; \x7d return g(x, y); \x7d"
      none).toOption.any fun program => program.hidden.isEmpty &&
        (apart (Piece.texts (.ofStyle (.ofRules (Options.rules { mangle := true }))
            (program.obfuscate (keywords ++ strictKeywords))) program.pieces) &&
          (Page.ofPieces (.ofRules (Options.rules { mangle := true }))
            (program.obfuscate (keywords ++ strictKeywords)) program.pieces).printed.text ==
              "function f(a)\x7btry\x7bvar b\x7dcatch(a)\x7bb=a\x7dreturn g(a,b)\x7d")) = true := by
    decide +kernel
  obtain ⟨program, hparse, hrest⟩ := exists_ok_of_any hparse
  simp only [Bool.and_eq_true, beq_iff_eq, List.isEmpty_iff] at hrest
  obtain ⟨hhidden, hapart, htext⟩ := hrest
  rw [← program.obfuscate_reservedWords] at hapart
  have hpressed := pressText_eq_ok.mpr ⟨program, hparse, program.print_mangled.trans htext⟩
  refine ⟨hpressed, ((pressText_again hparse hpressed fun _ => hhidden).resolve_right ?_).2⟩
  rintro ⟨-, hfused, -⟩
  exact absurd (hapart.symm.trans hfused) (by decide)

/-- A second run fails where a number has run into a word, and gives other names where a variable
is declared inside a handler under the name of its parameter. -/
theorem pressText_unsettled :
    (pressText "3. in x" {} = .ok "3.in x;" ∧ ∃ e, pressText "3.in x;" {} = .error e) ∧
    pressText "function f()\x7bvar p;try\x7b\x7dcatch(e)\x7bvar e\x7dvar x;return x+p\x7d" { mangle := true } =
      .ok "function f()\x7bvar a;try\x7b\x7dcatch(a)\x7bvar a\x7dvar c;return c+a\x7d" ∧
    pressText "function f()\x7bvar a;try\x7b\x7dcatch(a)\x7bvar a\x7dvar c;return c+a\x7d" { mangle := true } =
      .ok "function f()\x7bvar a;try\x7b\x7dcatch(a)\x7bvar a\x7dvar b;return b+a\x7d" := by
  have hmangled {source text : String} (h : ((parse source none).toOption.any fun program =>
      (Page.ofPieces (.ofRules (Options.rules { mangle := true }))
        (program.obfuscate (keywords ++ strictKeywords)) program.pieces).printed.text == text) = true) :
      pressText source { mangle := true } = .ok text := by
    obtain ⟨program, hparse, htext⟩ := exists_ok_of_any h
    exact pressText_eq_ok.mpr ⟨program, hparse, program.print_mangled.trans (beq_iff_eq.mp htext)⟩
  refine ⟨⟨?_, ?_⟩, hmangled (by decide +kernel), hmangled (by decide +kernel)⟩
  · have hparse : ((parse "3. in x" none).toOption.any fun program =>
        (program.print (Options.rules {})).text == "3.in x;") = true := by decide +kernel
    obtain ⟨program, hparse, htext⟩ := exists_ok_of_any hparse
    exact pressText_eq_ok.mpr ⟨program, hparse, beq_iff_eq.mp htext⟩
  · have hfails : (parse "3.in x;" none).isOk = false := by decide +kernel
    cases hparse : parse "3.in x;" none with
    | ok program => rw [hparse] at hfails; cases hfails
    | error e => exact ⟨e, by rw [pressText, hparse]; rfl⟩

end EcmaPress

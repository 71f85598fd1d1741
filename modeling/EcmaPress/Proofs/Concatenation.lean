import EcmaPress.Mapping.Bundle
import EcmaPress.Proofs.Continuation
import EcmaPress.Proofs.NewNames
import EcmaPress.Proofs.OpenEnds
import EcmaPress.Proofs.RoundTrip

/-!
# Bundles read back

The text of a bundle is read as the statements of its programs, one after the other. A program
whose last token is a semicolon or a closing brace parts from whatever follows it, and a semicolon
of the bundle stands behind every other one that is followed by something.
-/

namespace EcmaPress

open Piece

/-! ### Semicolons and braces -/

/-- Behind a semicolon and a closing brace anything may stand. -/
theorem Token.Readable.parts_final {t : Token} (h : t.Readable)
    (htext : t.text = ";" ∨ t.text = "\x7d") (rest : List Char) :
    Lexeme.Parts t.kind t.text.toList rest := by
  have hregex : t.kind ≠ .regex := by
    intro hkind
    have hslash := h.slash hkind
    rcases htext with htext | htext <;> rw [htext] at hslash <;> exact absurd hslash (by decide)
  have hkind : t.kind = .punct := by
    have hspelled := (h.spelled hregex).kindOf
    rcases htext with htext | htext <;> rw [htext] at hspelled
    · exact Option.some.inj (hspelled.symm.trans (by decide : Token.kindOf ";" = some .punct))
    · exact Option.some.inj (hspelled.symm.trans (by decide : Token.kindOf "\x7d" = some .punct))
  obtain ⟨c, hcons, hsingle, hother⟩ : ∃ c, t.text.toList = [c] ∧
      (∀ longer ∈ punctuators, longer.toList.head? = some c → longer.toList.length ≤ 1) ∧
      c ≠ '.' ∧ c ≠ '/' := by
    rcases htext with htext | htext <;> rw [htext]
    · exact ⟨';', by decide⟩
    · exact ⟨'\x7d', by decide⟩
  rw [hkind, hcons]
  refine ⟨fun longer hmem hfits => hsingle longer hmem ?_, by simp [hother.1], by simp [hother.2]⟩
  have hpos : 0 < longer.toList.length :=
    (by decide : ∀ longer ∈ punctuators, 0 < longer.toList.length) longer hmem
  obtain ⟨first, more, hlonger⟩ := List.exists_cons_of_length_pos hpos
  rw [hlonger, List.singleton_append] at hfits
  rw [hlonger, (List.cons_prefix_cons.mp hfits).1]
  rfl

/-! ### Programs before other text -/

section Spelling

variable {w : Wording} {broken : Bool} {final : Bool → Piece} {ps ls : List Piece} {d d' m : Cursor}

/-- Where the last semicolon is written, it does not matter that it might be dropped. -/
theorem Final.spells_written (hfinal : Final final) {s : String}
    (htext : (final true).text w = some s) (h : w.Spells broken (ps ++ final true :: ls) d d') :
    w.Spells broken (ps ++ final false :: ls) d d' := by
  cases hfinal with
  | sign => exact h
  | terminator =>
    have hdrop : w.drop = false := (text_terminator_eq_some.mp htext).1
    simpa only [Wording.spells_append, Wording.spells_terminator, hdrop, Bool.false_eq_true,
      and_false] using h

/-- Where the last semicolon is dropped, one behind the text takes its place. -/
theorem Final.spells_dropped (hfinal : Final final) (hls : ls.all isLayout = true)
    (htext : (final true).text w = none) (h : w.Spells broken (ps ++ final true :: ls) d d')
    (his : d'.token.is ";" = true) (hnext : d'.next = .ok m) :
    w.Spells broken (ps ++ final false :: ls) d m := by
  cases hfinal with
  | sign => cases htext
  | terminator =>
    have hdrop : w.drop = true := text_terminator_eq_none.mp htext
    simp only [Wording.spells_append, Wording.spells_terminator, hdrop, Wording.spells_layout hls,
      and_self, if_true, Bool.false_eq_true, false_and, if_false] at h ⊢
    obtain ⟨e, hps, rfl⟩ := h
    exact ⟨e, hps, his, m, hnext, rfl⟩

end Spelling

/-- The last text that pieces write. -/
theorem Final.last_text {final : Bool → Piece} {w : Wording} {s : String}
    (htext : (final true).text w = some s) (ps : List Piece) {ls : List Piece}
    (hls : ls.all isLayout = true) : (texts w (ps ++ final true :: ls)).getLast? = some s := by
  rw [texts_append, texts_written htext, texts_layout hls, List.getLast?_concat]

theorem Final.text_eq {final : Bool → Piece} (hfinal : Final final) {w : Wording} {s : String}
    (htext : (final true).text w = some s) : s = ";" ∨ s = "\x7d" := by
  cases hfinal with
  | sign hsign => exact Option.some.inj htext ▸ hsign
  | terminator =>
    exact .inl (text_terminator_eq_some.mp htext).2.symm

/-- A program as a printer may be asked to print it: it was parsed, it is indented by spaces, and
if names are exchanged, no keyword is taken for a name. -/
structure Printable (program : Program) (rules : List Rule) : Prop where
  parsed : ∃ source name, parse source name = .ok program
  indent : ∀ indent, .indent indent ∈ rules → ∀ c ∈ indent.toList, c = ' '
  keywords : ∀ reserved ∈ (Style.ofRules rules).reserved, ∀ word ∈ keywords, word ∈ reserved

/-- The wording of a program that is printed by rules. -/
def Program.wording (program : Program) (rules : List Rule) : Wording :=
  .ofStyle (.ofRules rules) (program.renames (.ofRules rules))

/-- The end of a program with statements, and whether its last semicolon is missing. -/
theorem Program.exists_final {program : Program} (hbody : program.body ≠ []) (rules : List Rule) :
    ∃ final ps ls, Final final ∧ ls.all isLayout = true ∧
      program.pieces = ps ++ final true :: ls ∧
      linesPieces [] [.newline] false program.body = ps ++ final false :: ls ∧
      (program.print rules).openEnd = ((final true).text (program.wording rules)).isNone := by
  obtain ⟨final, hfinal, ps, ls, hls, hlines⟩ := linesPieces_finishes hbody
  have hpieces : program.pieces = ps ++ final true :: ls := by
    rw [Program.pieces_eq]
    exact hlines true
  refine ⟨final, ps, ls, hfinal, hls, hpieces, hlines false, ?_⟩
  rw [Program.print, hpieces]
  exact Page.openEnd_final hfinal ps hls

/-- A program whose last semicolon is not missing ends in a semicolon or a closing brace. -/
theorem Program.last_text {program : Program} {rules : List Rule}
    (hclosed : (program.print rules).openEnd = false) {s : String}
    (hlast : (texts (program.wording rules) program.pieces).getLast? = some s) :
    s = ";" ∨ s = "\x7d" := by
  have hbody : program.body ≠ [] := by
    intro hbody
    rw [Program.pieces_eq, hbody] at hlast
    cases hlast
  obtain ⟨final, ps, ls, hfinal, hls, hpieces, -, hopen⟩ := Program.exists_final hbody rules
  rw [hclosed] at hopen
  obtain ⟨s', hwritten⟩ : ∃ s', (final true).text (program.wording rules) = some s' :=
    Option.isSome_iff_exists.mp (by simpa using hopen.symm)
  rw [hpieces, Final.last_text hwritten ps hls] at hlast
  exact Option.some.inj hlast ▸ hfinal.text_eq hwritten

/-- A program is spelled with all of its semicolons if the one that is missing stands behind it. -/
theorem Program.spells_closed {program : Program} {rules : List Rule} {d m m' : Cursor}
    (h : (program.wording rules).Spells true program.pieces d m)
    (hbehind : if (program.print rules).openEnd then m.token.is ";" = true ∧ m.next = .ok m'
      else m = m') :
    (program.wording rules).Spells true (linesPieces [] [.newline] false program.body) d m' := by
  by_cases hbody : program.body = []
  · have hpieces : program.pieces = [] := by rw [Program.pieces_eq, hbody]; rfl
    have hopen : (program.print rules).openEnd = false := by rw [Program.print, hpieces]; rfl
    rw [hpieces] at h
    rw [hopen] at hbehind
    rw [hbody]
    exact Eq.trans h hbehind
  obtain ⟨final, ps, ls, hfinal, hls, hpieces, hlines, hopen⟩ := Program.exists_final hbody rules
  rw [hpieces] at h
  rw [hlines]
  cases hwritten : (final true).text (program.wording rules) with
  | some s =>
    rw [hopen, hwritten] at hbehind
    obtain rfl : m = m' := hbehind
    exact hfinal.spells_written hwritten h
  | none =>
    rw [hopen, hwritten] at hbehind
    exact hfinal.spells_dropped hls hwritten h hbehind.1 hbehind.2

namespace Printable

variable {program : Program} {rules : List Rule}

theorem style_indent (h : Printable program rules) :
    ∀ indent ∈ (Style.ofRules rules).indent, ∀ c ∈ indent.toList, c = ' ' :=
  fun indent hindent => h.indent indent (Style.mem_of_indent hindent)

theorem legible (h : Printable program rules) : Legible (program.wording rules) program.pieces := by
  obtain ⟨source, name, hparse⟩ := h.parsed
  exact Legible.ofStyle (legible_of_parse hparse fun _ => rfl).1 h.keywords

theorem sits (h : Printable program rules) :
    Sits (Style.ofRules rules).dropSemicolons program.pieces := by
  obtain ⟨source, name, hparse⟩ := h.parsed
  exact (legible_of_parse (w := .original) hparse fun _ => rfl).2 _

/-- A text in the compact layout that is parsed has no number that runs into a word. -/
theorem apart (h : Printable program rules) {name : Option String} {copy : Program}
    (hcopy : parse (program.print rules).text name = .ok copy)
    (hcompact : (Style.ofRules rules).indent = none) :
    apart (texts (program.wording rules) program.pieces) = true := by
  obtain ⟨source, _, hparse⟩ := h.parsed
  exact apart_of_parse hparse hcompact h.legible (Page.text_printed ..) hcopy

end Printable

/-! ### Reading to the end -/

/-- What is read from a cursor up to the end of the text, but for places. -/
def Cursor.ReadsAs (body : List Statement) (d e : Cursor) : Prop :=
  ∃ zs, Grammar.statementsUntil (.ofDepth maxDepth) (·.isEnd) d = .ok (zs, e) ∧
    relabelStatements (.unplaced Identifier.name) zs = body

/-- At the end of the text nothing is read. -/
theorem Cursor.readsAs_end {d e : Cursor} (h : d.token.isEnd = true) {body : List Statement} :
    ReadsAs body d e ↔ body = [] ∧ e = d := by
  have hnone : Grammar.statementsUntil (.ofDepth maxDepth) (·.isEnd) d = .ok ([], d) :=
    Parser.many_nil.mpr (statementUnless_none.mpr ⟨h, rfl⟩)
  constructor
  · rintro ⟨zs, hzs, rfl⟩
    rw [hnone] at hzs
    obtain ⟨rfl, rfl⟩ := Prod.mk.inj (Except.ok.inj hzs)
    exact ⟨rfl, rfl⟩
  · rintro ⟨rfl, rfl⟩
    exact ⟨[], hnone, rfl⟩

theorem parse_of_readsAs {text : String} {d e : Cursor} {body : List Statement}
    (hd : (Input.ofList text.toList).next [] = .ok d) (h : d.ReadsAs body e) (name : Option String) :
    ∃ program, parse text name = .ok program ∧ program.unplaced = ⟨body⟩ := by
  obtain ⟨zs, hzs, hbody⟩ := h
  exact ⟨⟨zs⟩, parse_eq_ok.mpr ⟨d, e, hd, program_eq_ok.mpr hzs⟩, congrArg Program.mk hbody⟩

namespace Printable

variable {program copy : Program} {rules : List Rule} {name : Option String} {d m m' e : Cursor}

/-- Where the pieces of a program are spelled up to the end, the program is read. -/
theorem readsAs_worded (h : Printable program rules)
    (hspells : (program.wording rules).Spells true program.pieces d m) (hend : m.token.isEnd = true) :
    d.ReadsAs (relabelStatements (.unplaced (program.wording rules).name) program.body) m := by
  obtain ⟨source, _, hparse⟩ := h.parsed
  obtain ⟨c, c', -, hprogram⟩ := parse_eq_ok.mp hparse
  obtain ⟨again, hagain, hunplaced⟩ := (ProgramEcho.program hprogram).again _ _ d m hspells hend
  exact ⟨again.body, program_eq_ok.mp hagain, congrArg Program.body hunplaced⟩

/-- Where they are spelled before other text, with the semicolon that may be missing, the program
is read and what the other text is read as. -/
theorem readsAs_before (h : Printable program rules)
    (hspells : (program.wording rules).Spells true program.pieces d m)
    (hbehind : if (program.print rules).openEnd then m.token.is ";" = true ∧ m.next = .ok m'
      else m = m') {body : List Statement} (hbody : m'.ReadsAs body e) :
    d.ReadsAs
      (relabelStatements (.unplaced (program.wording rules).name) program.body ++ body) e := by
  obtain ⟨source, _, hparse⟩ := h.parsed
  obtain ⟨c, c', -, hprogram⟩ := parse_eq_ok.mp hparse
  obtain ⟨zs, hzs, rfl⟩ := hbody
  obtain ⟨ys, hys, hcopies⟩ := statementsUntil_append rfl rfl (program_eq_ok.mp hprogram)
    (Program.spells_closed hspells hbehind) hzs
  refine ⟨ys ++ zs, hys, ?_⟩
  rw [← hcopies, relabelStatements_eq, relabelStatements_eq, relabelStatements_eq, List.map_append]

/-- The text of a program is read as this program in the words that it was printed in. -/
theorem parse_worded (h : Printable program rules)
    (hapart : (Style.ofRules rules).indent = none →
      EcmaPress.apart (texts (program.wording rules) program.pieces) = true)
    (name : Option String) : ∃ copy, parse (program.print rules).text name = .ok copy ∧
      copy.unplaced.body =
        relabelStatements (.unplaced (program.wording rules).name) program.body := by
  have hchars : (Input.ofList (program.print rules).text.toList).chars = [] ++
      ({} : Page).allMarks (.ofRules rules) (program.renames (.ofRules rules)) program.pieces :=
    Page.text_printed ..
  obtain ⟨d, d', hd, hspells, hend⟩ := Page.spells h.style_indent h.legible h.sits hapart
    {} hchars isWhite_nil (fun _ => (rfl : true = true)) []
  obtain ⟨copy, hcopy, hunplaced⟩ :=
    parse_of_readsAs hd (h.readsAs_worded hspells hend) name
  exact ⟨copy, hcopy, congrArg Program.body hunplaced⟩

theorem body_copy (h : Printable program rules)
    (hcopy : parse (program.print rules).text name = .ok copy) :
    copy.unplaced.body =
      relabelStatements (.unplaced (program.wording rules).name) program.body := by
  obtain ⟨again, hagain, hbody⟩ := h.parse_worded (h.apart hcopy) name
  obtain rfl := Except.ok.inj (hcopy.symm.trans hagain)
  exact hbody

/-- A program without a text writes no tokens. -/
theorem texts_eq_nil (h : Printable program rules) (hempty : (program.print rules).text = "") :
    texts (program.wording rules) program.pieces = [] := by
  have hmarks : ({} : Page).allMarks (.ofRules rules) (program.renames (.ofRules rules))
      program.pieces = [] := by
    rw [← Page.text_printed]
    exact congrArg String.toList hempty
  exact Page.texts_eq_nil h.legible.lexical hmarks

/-- A program without a text has no statements, and no end. -/
theorem closed (h : Printable program rules) (hempty : (program.print rules).text = "") :
    (program.print rules).openEnd = false := by
  have hnone := h.texts_eq_nil hempty
  obtain ⟨copy, hcopy, hbody⟩ := h.parse_worded (fun _ => by rw [hnone]; rfl) none
  rw [hempty] at hcopy
  obtain ⟨d, e, hd, hcopied⟩ := parse_eq_ok.mp hcopy
  obtain ⟨d', hd', hend⟩ := Input.shows_end (.ofList []) [] [] rfl isWhite_nil
  obtain rfl := Except.ok.inj (hd.symm.trans hd')
  have hreads : d.ReadsAs copy.unplaced.body e := ⟨copy.body, program_eq_ok.mp hcopied, rfl⟩
  rw [((Cursor.readsAs_end hend).mp hreads).1, relabelStatements_eq, eq_comm, List.map_eq_nil_iff]
    at hbody
  have hpieces : program.pieces = [] := by rw [Program.pieces_eq, hbody]; rfl
  rw [Program.print, hpieces]
  rfl

end Printable

/-! ### Bundles -/

/-- A program that comes into a bundle by the name of its source: the rules that it is printed by,
and what the printed text is read as. -/
structure Part where
  source : String
  program : Program
  rules : List Rule
  copy : Program

/-- The printed program of a part. -/
def Part.printed (part : Part) : Printed :=
  part.program.print part.rules

/-- A part may be printed, and its text is parsed on its own. -/
structure Part.Parsed (part : Part) : Prop where
  printable : Printable part.program part.rules
  reads : ∃ name, parse part.printed.text name = .ok part.copy

/-- A part made of a text, if this is parsed and what is printed of it is parsed again. -/
def Part.ofText? (source text : String) (rules : List Rule) : Option Part := do
  let program ← (parse text none).toOption
  let copy ← (parse (program.print rules).text none).toOption
  return ⟨source, program, rules, copy⟩

theorem Part.ofText?_eq_some {source text : String} {rules : List Rule} {part : Part}
    (h : ofText? source text rules = some part) : parse text none = .ok part.program ∧
      part.rules = rules ∧ parse part.printed.text none = .ok part.copy := by
  have hok {α : Type} {x : Except SyntaxError α} {a : α} (hx : x.toOption = some a) : x = .ok a := by
    cases x with
    | error => cases hx
    | ok => exact congrArg Except.ok (Option.some.inj hx)
  obtain ⟨program, hprogram, h⟩ := Option.bind_eq_some_iff.mp h
  obtain ⟨copy, hcopy, h⟩ := Option.bind_eq_some_iff.mp h
  obtain rfl := Option.some.inj h
  exact ⟨hok hprogram, rfl, hok hcopy⟩

/-- The bundle of some parts, in their order. -/
def Bundle.ofParts (parts : List Part) : Bundle :=
  parts.foldl (fun bundle part => bundle.push part.source part.printed) {}

/-- What stands between a text and the one behind it. -/
def separator (openEnd : Bool) (rest : List Char) : List Char :=
  if openEnd && !rest.isEmpty then [';'] else []

/-- The texts of parts with what stands between them. -/
def joined : List Part → List Char
  | [] => []
  | part :: rest =>
    part.printed.text.toList ++ (separator part.printed.openEnd (joined rest) ++ joined rest)

/-- What is added to a bundle with some parts. A part that is empty adds nothing, and the end of
the part before it stays as it is. -/
theorem Bundle.text_push {parts : List Part} (h : ∀ part ∈ parts, Printable part.program part.rules)
    (bundle : Bundle) :
    (parts.foldl (fun bundle part => bundle.push part.source part.printed) bundle).text.toList =
      bundle.text.toList ++ (separator bundle.openEnd (joined parts) ++ joined parts) := by
  induction parts generalizing bundle with
  | nil => simp [joined, separator]
  | cons part parts ih =>
    have hprintable := h part (List.mem_cons_self ..)
    rw [List.foldl_cons, ih fun other hother => h other (List.mem_cons_of_mem _ hother), joined]
    by_cases hempty : part.printed.text = ""
    · rw [show part.printed.openEnd = false from hprintable.closed hempty]
      simp [push, hempty, separator]
    · have hsome : part.printed.text.toList ≠ [] := by simpa using hempty
      simp only [push, String.isEmpty_iff, hempty, if_false]
      cases hopen : bundle.openEnd <;> simp [separator, append, hsome, hopen]

/-- The text of a bundle is that of its parts. -/
theorem Bundle.text_ofParts {parts : List Part}
    (h : ∀ part ∈ parts, Printable part.program part.rules) :
    (ofParts parts).text.toList = joined parts := by
  rw [ofParts, text_push h]
  simp [separator]

namespace Part

/-- What the text of a part is read as: its program in the words that it is printed in. -/
def body (part : Part) : List Statement :=
  relabelStatements (.unplaced (part.program.wording part.rules).name) part.program.body

/-- No number of a part runs into a word. -/
def IsApart (part : Part) : Prop :=
  (Style.ofRules part.rules).indent = none →
    apart (texts (part.program.wording part.rules) part.program.pieces) = true

/-- Parts are laid out as tokens with white space in front of each, behind other white space. -/
inductive Lays : List Char → List Part → List Spaced → List Char → Prop
  | done {blanks : List Char} : Lays blanks [] [] blanks
  | joined {blanks mid last : List Char} {part : Part} {rest : List Part} {xs ys : List Spaced} :
      separator part.printed.openEnd (joined rest) = [] →
      ({} : Page).Lays (.ofRules part.rules) (part.program.renames (.ofRules part.rules)) blanks
        part.program.pieces xs mid →
      Lays mid rest ys last → Lays blanks (part :: rest) (xs ++ ys) last
  | separated {blanks mid last : List Char} {part : Part} {rest : List Part} {xs ys : List Spaced} :
      separator part.printed.openEnd (joined rest) = [';'] →
      ({} : Page).Lays (.ofRules part.rules) (part.program.renames (.ofRules part.rules)) blanks
        part.program.pieces xs mid →
      Lays [] rest ys last →
      Lays blanks (part :: rest) (xs ++ (mid, ⟨.punct, ";", .start, false⟩) :: ys) last

/-- Text that may stand behind a part: none, white space, or a semicolon if that of the part is
missing. -/
def Follows (part : Part) (behind : List Char) : Prop :=
  part.printed.openEnd = true →
    behind = [] ∨ ∃ c more, behind = c :: more ∧ (c = ' ' ∨ c = '\n' ∨ c = ';')

/-- Text that may stand behind all parts: none, or white space in front. -/
def IsTail (tail : List Char) : Prop :=
  tail = [] ∨ ∃ c more, tail = c :: more ∧ (c = ' ' ∨ c = '\n')

variable {blanks last tail : List Char} {parts : List Part} {xs : List Spaced}

theorem exists_lays (h : ∀ part ∈ parts, Printable part.program part.rules) (blanks : List Char) :
    ∃ xs last, Lays blanks parts xs last := by
  induction parts generalizing blanks with
  | nil => exact ⟨[], blanks, .done⟩
  | cons part rest ih =>
    obtain ⟨hfirst, hrest⟩ := List.forall_mem_cons.mp h
    obtain ⟨xs, mid, hlays⟩ := ({} : Page).exists_lays hfirst.legible.lexical blanks
    by_cases hsep : separator part.printed.openEnd (EcmaPress.joined rest) = []
    · obtain ⟨ys, last, hlays'⟩ := ih hrest mid
      exact ⟨_, last, .joined hsep hlays hlays'⟩
    · obtain ⟨ys, last, hlays'⟩ := ih hrest []
      refine ⟨_, last, .separated ?_ hlays hlays'⟩
      unfold separator at hsep ⊢
      split at hsep
      · next hneeded => rw [if_pos hneeded]
      · exact absurd rfl hsep

namespace Lays

theorem text (h : Lays blanks parts xs last) : spacedText xs last = blanks ++ EcmaPress.joined parts := by
  induction h with
  | done => rw [spacedText, EcmaPress.joined, List.append_nil]
  | @joined _ mid _ part rest _ _ hsep hlays _ ih =>
    rw [spacedText_append, ih, spacedText_before, hlays.text, EcmaPress.joined, hsep,
      ← Page.text_printed, List.append_assoc]
    rfl
  | @separated _ mid _ part rest xs ys hsep hlays _ ih =>
    rw [spacedText_append, spacedText, ih, spacedText_before, hlays.text, EcmaPress.joined, hsep,
      ← Page.text_printed, List.append_assoc]
    rfl

/-- The tokens can be read, with white space between them. -/
theorem white (h : Lays blanks parts xs last)
    (hprintable : ∀ part ∈ parts, Printable part.program part.rules) (hblank : IsWhite blanks) :
    (∀ x ∈ xs, IsWhite x.1 ∧ x.2.Readable) ∧ IsWhite last := by
  induction h with
  | done => exact ⟨nofun, hblank⟩
  | joined _ hlays _ ih =>
    obtain ⟨hfirst, hrest⟩ := List.forall_mem_cons.mp hprintable
    obtain ⟨hxs, hmid⟩ := hlays.white hfirst.style_indent hblank
    obtain ⟨hys, hlast⟩ := ih hrest hmid
    exact ⟨List.forall_mem_append.mpr ⟨hxs, hys⟩, hlast⟩
  | separated _ hlays _ ih =>
    obtain ⟨hfirst, hrest⟩ := List.forall_mem_cons.mp hprintable
    obtain ⟨hxs, hmid⟩ := hlays.white hfirst.style_indent hblank
    obtain ⟨hys, hlast⟩ := ih hrest isWhite_nil
    exact ⟨List.forall_mem_append.mpr
      ⟨hxs, List.forall_mem_cons.mpr ⟨⟨hmid, readable_semicolon⟩, hys⟩⟩, hlast⟩

/-- Without text behind it a part has no separator, and with one its end may be missing. -/
theorem closed_of_nil {part : Part} {rest : List Part}
    (hsep : separator part.printed.openEnd (EcmaPress.joined rest) = [])
    (hopen : part.printed.openEnd = true) : EcmaPress.joined rest = [] := by
  simpa [separator, hopen] using hsep

theorem open_of_separator {part : Part} {rest : List Part}
    (hsep : separator part.printed.openEnd (EcmaPress.joined rest) = [';']) :
    part.printed.openEnd = true := by
  cases hopen : part.printed.openEnd with
  | true => rfl
  | false => simp [separator, hopen] at hsep

/-- Without a text there are no tokens. -/
theorem eq_nil (h : Lays blanks parts xs last)
    (hprintable : ∀ part ∈ parts, Printable part.program part.rules)
    (hnone : EcmaPress.joined parts = []) : xs = [] := by
  induction h with
  | done => rfl
  | @joined _ _ _ part rest xs ys hsep hlays _ ih =>
    obtain ⟨hfirst, hrest⟩ := List.forall_mem_cons.mp hprintable
    rw [EcmaPress.joined, List.append_eq_nil_iff, List.append_eq_nil_iff] at hnone
    have hempty : part.printed.text = "" := String.toList_injective hnone.1
    have htexts := hlays.texts.trans (hfirst.texts_eq_nil hempty)
    rw [List.map_eq_nil_iff.mp htexts, ih hrest hnone.2.2]
    rfl
  | separated hsep =>
    rw [EcmaPress.joined, hsep, List.append_eq_nil_iff] at hnone
    cases hnone.2

/-- Wherever the tokens are read up to the end, the bodies of the parts are read. -/
theorem readsAs (h : Lays blanks parts xs last)
    (hprintable : ∀ part ∈ parts, Printable part.program part.rules) (hblank : IsWhite blanks)
    {pos : Position} {us : List Token} {d d' : Cursor}
    (hus : us.map Token.unplaced = (spacedTokens pos xs).map Token.unplaced)
    (hreads : d.Reads us d') (hend : d'.token.isEnd = true) :
    d.ReadsAs (parts.flatMap body) d' := by
  induction h generalizing pos us d with
  | done =>
    obtain rfl : us = [] := by simpa [spacedTokens] using hus
    cases hreads
    exact (Cursor.readsAs_end hend).mpr ⟨rfl, rfl⟩
  | @joined _ mid _ part rest xs ys hsep hlays hlays' ih =>
    obtain ⟨hfirst, hrest⟩ := List.forall_mem_cons.mp hprintable
    obtain ⟨pos', hpos⟩ := spacedTokens_append pos
    rw [hpos, List.map_append] at hus
    obtain ⟨us, vs, rfl, hxs, hvs⟩ := List.map_eq_append_iff.mp hus
    obtain ⟨m, hfront, hback⟩ := Cursor.Reads.append_iff.mp hreads
    have hspells := hlays.spells hfirst.style_indent hfirst.legible hblank
      (fun _ => (rfl : true = true)) hxs hfront
    have hmore := ih hrest (hlays.white hfirst.style_indent hblank).2 hvs hback
    rw [List.flatMap_cons]
    cases hopen : part.printed.openEnd with
    | false =>
      refine hfirst.readsAs_before hspells ?_ hmore
      rw [show (part.program.print part.rules).openEnd = false from hopen]
      rfl
    | true =>
      -- Nothing is written behind the part, so nothing is read there.
      rw [hlays'.eq_nil hrest (closed_of_nil hsep hopen)] at hvs
      obtain rfl : vs = [] := by simpa [spacedTokens] using hvs
      cases hback
      rw [((Cursor.readsAs_end hend).mp hmore).1, List.append_nil]
      exact hfirst.readsAs_worded hspells hend
  | @separated _ mid _ part rest xs ys hsep hlays _ ih =>
    obtain ⟨hfirst, hrest⟩ := List.forall_mem_cons.mp hprintable
    obtain ⟨pos', hpos⟩ := spacedTokens_append pos
    rw [hpos, List.map_append] at hus
    obtain ⟨us, vs', rfl, hxs, hvs⟩ := List.map_eq_append_iff.mp hus
    obtain ⟨v, vs, rfl, hv, hys⟩ := List.map_eq_cons_iff.mp hvs
    obtain ⟨m, hfront, hback⟩ := Cursor.Reads.append_iff.mp hreads
    have hspells := hlays.spells hfirst.style_indent hfirst.legible hblank
      (fun _ => (rfl : true = true)) hxs hfront
    cases hback with
    | @more _ m' _ _ _ htakes hback =>
      obtain ⟨r, hoffer, hnext⟩ := Cursor.takes_iff.mp htakes
      obtain ⟨hkind, htext, -⟩ := Token.unplaced_eq.mp hv
      obtain ⟨rfl, rfl⟩ := hoffer.plain_eq (by simp [hkind, Token.behind])
      refine hfirst.readsAs_before hspells ?_ (ih hrest isWhite_nil hys hback)
      rw [show (part.program.print part.rules).openEnd = true from open_of_separator hsep]
      exact ⟨Token.is_iff.mpr ⟨.inl hkind, htext⟩, hnext⟩

/-- The tokens of a part are told apart, also from what stands behind. -/
theorem parted_part {part : Part} {mid behind : List Char}
    (h : ({} : Page).Lays (.ofRules part.rules) (part.program.renames (.ofRules part.rules)) blanks
      part.program.pieces xs mid)
    (hprintable : Printable part.program part.rules) (hblank : IsWhite blanks)
    (hapart : part.IsApart) (hbehind : Follows part behind) : Parted xs (mid ++ behind) := by
  refine h.parted hprintable.style_indent hblank hprintable.sits hapart fun x hx => ?_
  have hread := ((h.white hprintable.style_indent hblank).1 x (List.mem_of_getLast? hx)).2
  cases hopen : part.printed.openEnd with
  | false =>
    refine hread.parts_final (Program.last_text hopen ?_) behind
    rw [Program.wording, ← h.texts, List.getLast?_map, Option.mem_def.mp hx]
    rfl
  | true =>
    rcases hbehind hopen with rfl | ⟨c, more, rfl, hc⟩
    · exact Lexeme.parts_nil
    · exact hread.parts_separator hc more

theorem follows_joined {part : Part} {rest : List Part} (htail : IsTail tail)
    (hsep : separator part.printed.openEnd (EcmaPress.joined rest) = []) :
    Follows part (EcmaPress.joined rest ++ tail) := by
  intro hopen
  rw [closed_of_nil hsep hopen, List.nil_append]
  exact htail.imp_right fun ⟨c, more, htail, hc⟩ => ⟨c, more, htail, hc.imp_right .inl⟩

theorem follows_separator (part : Part) (behind : List Char) : Follows part (';' :: behind) :=
  fun _ => .inr ⟨';', behind, rfl, .inr (.inr rfl)⟩

theorem text_tail (h : Lays blanks parts xs last) (tail : List Char) :
    spacedText xs (last ++ tail) = blanks ++ (EcmaPress.joined parts ++ tail) := by
  rw [spacedText_before, h.text, List.append_assoc]

/-- If no number runs into a word, all tokens are told apart. -/
theorem parted (h : Lays blanks parts xs last)
    (hprintable : ∀ part ∈ parts, Printable part.program part.rules) (hblank : IsWhite blanks)
    (hapart : ∀ part ∈ parts, part.IsApart) (htail : IsTail tail) : Parted xs (last ++ tail) := by
  induction h with
  | done => trivial
  | joined hsep hlays hlays' ih =>
    obtain ⟨hfirst, hrest⟩ := List.forall_mem_cons.mp hprintable
    obtain ⟨hapart, haparts⟩ := List.forall_mem_cons.mp hapart
    refine parted_append.mpr
      ⟨?_, ih hrest (hlays.white hfirst.style_indent hblank).2 haparts⟩
    rw [hlays'.text_tail]
    exact parted_part hlays hfirst hblank hapart (follows_joined htail hsep)
  | separated hsep hlays hlays' ih =>
    obtain ⟨hfirst, hrest⟩ := List.forall_mem_cons.mp hprintable
    obtain ⟨hapart, haparts⟩ := List.forall_mem_cons.mp hapart
    refine parted_append.mpr
      ⟨?_, (hlays.white hfirst.style_indent hblank).2, readable_semicolon,
        readable_semicolon.parts_final (.inl rfl) _, ih hrest isWhite_nil haparts⟩
    exact parted_part hlays hfirst hblank hapart (follows_separator _ _)

/-- If a number runs into a word, the text can be read up to there and no further. -/
theorem halts (h : Lays blanks parts xs last)
    (hprintable : ∀ part ∈ parts, Printable part.program part.rules) (hblank : IsWhite blanks)
    (hfused : ¬ ∀ part ∈ parts, part.IsApart) (htail : IsTail tail) : Halts xs (last ++ tail) := by
  -- The induction goes to the first part in which a number runs into a word.
  induction h with
  | done => exact absurd (fun _ hpart => absurd hpart List.not_mem_nil) hfused
  | @joined _ _ _ part rest _ _ hsep hlays hlays' ih =>
    obtain ⟨hfirst, hrest⟩ := List.forall_mem_cons.mp hprintable
    by_cases hapart : part.IsApart
    · refine .append_right ?_ (ih hrest (hlays.white hfirst.style_indent hblank).2 fun haparts =>
        hfused (List.forall_mem_cons.mpr ⟨hapart, haparts⟩))
      rw [hlays'.text_tail]
      exact parted_part hlays hfirst hblank hapart (follows_joined htail hsep)
    · obtain ⟨hcompact, hfused⟩ := Classical.not_imp.mp hapart
      refine .append_left ?_
      rw [hlays'.text_tail]
      exact hlays.halts hcompact hblank hfirst.sits (Bool.eq_false_iff.mpr hfused) _
  | @separated _ _ _ part rest _ _ hsep hlays hlays' ih =>
    obtain ⟨hfirst, hrest⟩ := List.forall_mem_cons.mp hprintable
    by_cases hapart : part.IsApart
    · refine .append_right (parted_part hlays hfirst hblank hapart (follows_separator _ _)) ?_
      exact .inr ⟨(hlays.white hfirst.style_indent hblank).2, readable_semicolon,
        readable_semicolon.parts_final (.inl rfl) _, ih hrest isWhite_nil fun haparts =>
          hfused (List.forall_mem_cons.mpr ⟨hapart, haparts⟩)⟩
    · obtain ⟨hcompact, hfused⟩ := Classical.not_imp.mp hapart
      exact .append_left (hlays.halts hcompact hblank hfirst.sits (Bool.eq_false_iff.mpr hfused) _)

end Lays

/-- If no number runs into a word, the text of parts is read as what each of them is read as, also
before white space that goes to the end. -/
theorem parse_joined (hprintable : ∀ part ∈ parts, Printable part.program part.rules)
    (hapart : ∀ part ∈ parts, part.IsApart) (htail : IsTail tail)
    (hend : Input.Shows tail fun d => d.token.isEnd = true) {text : String}
    (htext : text.toList = EcmaPress.joined parts ++ tail) (name : Option String) :
    ∃ whole, parse text name = .ok whole ∧ whole.unplaced = ⟨parts.flatMap body⟩ := by
  obtain ⟨xs, last, hlays⟩ := exists_lays hprintable []
  have hchars : (Input.ofList text.toList).chars = spacedText xs (last ++ tail) := by
    rw [hlays.text_tail, List.nil_append, ← htext]
    rfl
  obtain ⟨d, d', hd, hreads, hend⟩ := (hlays.parted hprintable isWhite_nil hapart htail).reads_end
    (hlays.white hprintable isWhite_nil).2 hend hchars []
  exact parse_of_readsAs hd (hlays.readsAs hprintable isWhite_nil rfl hreads hend) name

/-- If a number runs into a word, the text of parts is not parsed. -/
theorem parse_joined_error (hprintable : ∀ part ∈ parts, Printable part.program part.rules)
    (hfused : ¬ ∀ part ∈ parts, part.IsApart) (htail : IsTail tail) {text : String}
    (htext : text.toList = EcmaPress.joined parts ++ tail) (name : Option String) :
    ∃ e, parse text name = .error e := by
  obtain ⟨xs, last, hlays⟩ := exists_lays hprintable []
  refine (hlays.halts hprintable isWhite_nil hfused htail).parse_error (hlays.white hprintable isWhite_nil).1
    (fun us d d' hus hreads hend => ?_) (by rw [hlays.text_tail, List.nil_append, htext]) name
  obtain ⟨zs, hzs, -⟩ := hlays.readsAs hprintable isWhite_nil hus hreads hend
  exact ⟨⟨zs⟩, program_eq_ok.mpr hzs⟩

end Part

/-- The text of a bundle is parsed, as the statements of its parts, one after the other. -/
theorem Bundle.parse_ofParts {parts : List Part} (h : ∀ part ∈ parts, part.Parsed)
    (name : Option String) : ∃ whole, parse (ofParts parts).text name = .ok whole ∧
      whole.unplaced.body = parts.flatMap fun part => part.copy.unplaced.body := by
  have hprintable : ∀ part ∈ parts, Printable part.program part.rules :=
    fun part hpart => (h part hpart).printable
  have htext : (ofParts parts).text.toList = joined parts ++ [] := by
    rw [text_ofParts hprintable, List.append_nil]
  have hapart : ∀ part ∈ parts, part.IsApart := fun part hpart => by
    obtain ⟨hprintable, _, hcopy⟩ := h part hpart
    exact hprintable.apart hcopy
  obtain ⟨whole, hwhole, hbody⟩ :=
    Part.parse_joined hprintable hapart (.inl rfl) Input.shows_end htext name
  refine ⟨whole, hwhole, (congrArg Program.body hbody).trans ?_⟩
  simp only [List.flatMap_def]
  refine congrArg List.flatten (List.map_congr_left fun part hpart => ?_)
  obtain ⟨hprintable, _, hcopy⟩ := h part hpart
  exact (hprintable.body_copy hcopy).symm

theorem Bundle.parse_ofParts_two : ∃ part other : Part, part.Parsed ∧ other.Parsed ∧
    (ofParts [part, other]).text = "function f(a)\x7breturn a+1\x7db=c;(d)" ∧
    ∃ whole, parse (ofParts [part, other]).text none = .ok whole ∧
      whole.unplaced.body = part.copy.unplaced.body ++ other.copy.unplaced.body := by
  have hparts : ((Part.ofText? "a" "function f(value) \x7breturn value + 1\x7d b = c"
      [.minify true, .obfuscate keywords]).any fun part =>
        (Part.ofText? "b" "(d)" [.minify true]).any fun other =>
          (ofParts [part, other]).text == "function f(a)\x7breturn a+1\x7db=c;(d)") = true := by
    decide +kernel
  obtain ⟨part, hpart, hparts⟩ := (Option.any_eq_true ..).mp hparts
  obtain ⟨other, hother, htext⟩ := (Option.any_eq_true ..).mp hparts
  obtain ⟨hprogram, hrules, hcopy⟩ := Part.ofText?_eq_some hpart
  obtain ⟨hprogram', hrules', hcopy'⟩ := Part.ofText?_eq_some hother
  have hparsed : part.Parsed := by
    refine ⟨⟨⟨_, _, hprogram⟩, by simp [hrules], ?_⟩, _, hcopy⟩
    rw [hrules]
    rintro reserved ⟨⟩
    exact fun word hword => hword
  have hparsed' : other.Parsed :=
    ⟨⟨⟨_, _, hprogram'⟩, by simp [hrules'], by rw [hrules']; rintro reserved ⟨⟩⟩, _, hcopy'⟩
  have hall : ∀ p ∈ [part, other], p.Parsed := by simp [hparsed, hparsed']
  obtain ⟨whole, hwhole, hbody⟩ := parse_ofParts hall none
  exact ⟨part, other, hparsed, hparsed', beq_iff_eq.mp htext, whole, hwhole, by simpa using hbody⟩

/-- The new name of the only variable of a function. -/
theorem obfuscate_function {program : Program} {reserved : List String} {new : String}
    {f x y : Position} (hscoping : program.scoping =
      ⟨#[⟨none, ["f"], false⟩, ⟨some .function, ["x"], false⟩],
        #[⟨⟨"f", f⟩, [0]⟩, ⟨⟨"x", x⟩, [1, 0]⟩, ⟨⟨"x", y⟩, [1, 0]⟩], [0]⟩)
    (hfresh : freshNames reserved.eraseDups 1 = [new]) (hnew : new ≠ "x") :
    program.obfuscate reserved = ((∅ : Renames).insert x.offset new).insert y.offset new := by
  have htables : program.scoping.tables reserved =
      #[[], ["x"].zip (freshNames ((reserved ++ []).eraseDups) 1)] := by
    rw [hscoping]
    rfl
  rw [List.append_nil, hfresh] at htables
  have hresolved : program.scoping.resolved = [(⟨⟨"f", f⟩, [0]⟩, some 0),
      (⟨⟨"x", x⟩, [1, 0]⟩, some 1), (⟨⟨"x", y⟩, [1, 0]⟩, some 1)] := by
    rw [hscoping]
    rfl
  rw [Program.obfuscate, Scoping.renames, htables, hresolved]
  simp [Scoping.newName, hnew]

/-- A keyword that is taken for a name may turn a string into a regular expression, and the end of
a program into a comment, which then swallows the next program. -/
theorem Bundle.keyword_swallows : ∃ part other : Part, (∀ p ∈ [part, other],
      (∃ source name, parse source name = .ok p.program) ∧ (∀ indent, .indent indent ∉ p.rules) ∧
        parse p.printed.text none = .ok p.copy) ∧
    (ofParts [part, other]).text = "function f()\x7bdo/\"/;while(0)\x7d //\";var do;\x7da;" ∧
    ∃ whole, parse (ofParts [part, other]).text none = .ok whole ∧
      whole.unplaced.body ≠ part.copy.unplaced.body ++ other.copy.unplaced.body := by
  have hprogram : ((parse "function f()\x7bx/\"/;while(0)\x7d //\";var x\x7d" none).toOption.any
      fun program => decide (program.scoping =
        ⟨#[⟨none, ["f"], false⟩, ⟨some .function, ["x"], false⟩],
          #[⟨⟨"f", ⟨9, 1, 10⟩⟩, [0]⟩, ⟨⟨"x", ⟨13, 1, 14⟩⟩, [1, 0]⟩, ⟨⟨"x", ⟨36, 1, 37⟩⟩, [1, 0]⟩],
          [0]⟩) &&
        let printed := (Page.ofPieces (.ofRules [.obfuscate ((List.range 252).map shortName)])
          (((∅ : Renames).insert 13 "do").insert 36 "do") program.pieces).printed
        (printed.text, printed.openEnd) ==
          ("function f()\x7bdo/\"/;while(0)\x7d //\";var do;\x7d", false)) = true := by
    decide +kernel
  obtain ⟨program, hprogram, hprinted⟩ := exists_ok_of_any hprogram
  rw [Bool.and_eq_true, decide_eq_true_iff, beq_iff_eq] at hprinted
  obtain ⟨hscoping, hprinted⟩ := hprinted
  have hfresh : freshNames ((List.range 252).map shortName).eraseDups 1 = ["do"] := by
    rw [eraseDups_shortNames, freshNames_range]
    decide +kernel
  rw [← obfuscate_function hscoping hfresh (by decide)] at hprinted
  have hcopies : ((parse "function f()\x7bdo/\"/;while(0)\x7d //\";var do;\x7d" none).toOption.any
      fun copy => (Part.ofText? "b" "a" []).any fun other => other.printed.text == "a;" &&
        (parse "function f()\x7bdo/\"/;while(0)\x7d //\";var do;\x7da;" none).toOption.any
          fun whole => whole.body.length != copy.body.length + other.copy.body.length) = true := by
    decide +kernel
  obtain ⟨copy, hcopy, hother⟩ := exists_ok_of_any hcopies
  obtain ⟨other, hother, hwhole⟩ := (Option.any_eq_true ..).mp hother
  rw [Bool.and_eq_true, beq_iff_eq] at hwhole
  obtain ⟨htext', whole, hwhole, hlength⟩ := hwhole.imp_right exists_ok_of_any
  obtain ⟨hprogram', hrules', hcopy'⟩ := Part.ofText?_eq_some hother
  let part : Part := ⟨"a", program, [.obfuscate ((List.range 252).map shortName)], copy⟩
  obtain ⟨htext, hopen⟩ : part.printed.text = _ ∧ part.printed.openEnd = _ := Prod.mk.inj hprinted
  have hbundle : (ofParts [part, other]).text =
      "function f()\x7bdo/\"/;while(0)\x7d //\";var do;\x7da;" := by
    simp [ofParts, push, append, htext, hopen, htext']
  refine ⟨part, other, ?_, hbundle, whole, hbundle ▸ hwhole, fun hbody => ?_⟩
  · simp only [List.forall_mem_cons]
    exact ⟨⟨⟨_, _, hprogram⟩, by simp [part], htext ▸ hcopy⟩,
      ⟨⟨_, _, hprogram'⟩, by simp [hrules'], hcopy'⟩, nofun⟩
  · have hlengths := congrArg List.length hbody
    simp only [Program.unplaced, relabelStatements_eq, List.length_append, List.length_map] at hlengths
    simp [hlengths, part] at hlength

end EcmaPress

import EcmaPress.Proofs.Concatenation
import EcmaPress.Proofs.Idempotence

/-!
# New names for local variables only

A program that is printed with new names and in lines is read back as the same tree with these
names, in which everything but names that are bound or used stays as it is. Only what is bound in a
function or in a handler is given another name, and it is given the same one wherever it occurs.
-/

namespace EcmaPress
namespace Scoping

/-- What an occurrence is called whose name is bound in no function and in no handler around it. -/
theorem Sound.called_free {s : Scoping} (h : s.Sound) (reserved : List String) {o : Occurrence}
    (hfree : ∀ n ∈ o.chain, n ≠ 0 → o.id.name ∉ s.bound n) : s.called reserved o = o.id.name := by
  cases hbinding : s.binding o with
  | none => rw [called, hbinding, newName]
  | some n =>
    have hmem := mem_bound_of_binding hbinding
    have hn : n = 0 := Decidable.byContradiction fun hn =>
      hfree n (mem_chain_of_binding hbinding) hn hmem
    obtain ⟨scope, hscope, -⟩ := mem_bound.mp hmem
    have hkind : scope.kind.isNone = true :=
      Option.isNone_iff_eq_none.mpr ((h.global n scope hscope).mpr hn)
    rw [called, hbinding]
    exact newName_fixed hscope (Bool.or_eq_true_iff.mpr (.inl hkind)) _

end Scoping

namespace Program

variable {source : String} {origin : Option String} {program : Program}

/-! ### What identifiers are given -/

/-- What an identifier is given for its name, if anything, and how it is printed then. -/
structure Given (program : Program) (reserved : List String) (id : Identifier)
    (new? : Option String) : Prop where
  renames : (program.obfuscate reserved)[id.pos.offset]? = new?
  printed : ∀ rules, (Style.ofRules rules).reserved = some reserved →
    (Piece.name id).text (program.wording rules) = some (new?.getD id.name)

theorem given_of_called {reserved : List String} {new? : Option String}
    (h : parse source origin = .ok program) {o : Occurrence} (ho : o ∈ program.scoping.occurrences)
    (hnew : (if program.scoping.called reserved o == o.id.name then none
      else some (program.scoping.called reserved o)) = new?) :
    program.Given reserved o.id new? := by
  have hrenames : (program.obfuscate reserved)[o.id.pos.offset]? = new? :=
    (Scoping.renames_getElem? (distinct h) ho).trans hnew
  refine ⟨hrenames, fun rules hrules => ?_⟩
  have hstyle : program.renames (.ofRules rules) = program.obfuscate reserved := by
    rw [Program.renames, hrules]
  rw [Piece.text, wording, hstyle]
  exact congrArg (fun new? : Option String => some (new?.getD o.id.name)) hrenames

theorem given_of_kept {reserved : List String} (h : parse source origin = .ok program)
    {o : Occurrence} (ho : o ∈ program.scoping.occurrences)
    (hkept : program.scoping.called reserved o = o.id.name) : program.Given reserved o.id none :=
  given_of_called h ho (if_pos (beq_iff_eq.mpr hkept))

/-! ### Local variables -/

/-- Names by which a program is printed change nothing but local variables. The names that may
change are those that occur in scopes. One that no function and no handler around it binds is kept,
and all that denote one binding are changed to the same name. -/
structure LocalRenaming (program : Program) (name : Identifier → String) : Prop where
  occurrences :
    (program.scoping.occurrences.toList.map Occurrence.id).Perm (Piece.ids program.pieces)
  kept : ∀ o ∈ program.scoping.occurrences,
    (∀ n ∈ o.chain, n ≠ 0 → o.id.name ∉ program.scoping.bound n) → name o.id = o.id.name
  alike : ∀ o ∈ program.scoping.occurrences, ∀ other ∈ program.scoping.occurrences,
    program.scoping.denotation o = program.scoping.denotation other → name o.id = name other.id

theorem obfuscate_localRenaming (h : parse source origin = .ok program) (reserved : List String) :
    program.LocalRenaming fun id => (program.obfuscate reserved)[id.pos.offset]?.getD id.name := by
  obtain ⟨c, c', -, hprogram⟩ := parse_eq_ok.mp h
  refine ⟨?_, ?_, ?_⟩
  · have htally : Tally program.events program.pieces := Program.tally _ _ _ hprogram
    exact (Scoping.map_id_occurrences program.events).symm ▸ htally
  · intro o ho hfree
    rw [getElem?_obfuscate h reserved ho]
    exact (Scoping.Sound.ofEvents program.events).called_free reserved hfree
  · intro o ho other hother hsame
    obtain ⟨hbinding, hname⟩ := Prod.mk.inj hsame
    rw [getElem?_obfuscate h reserved ho, getElem?_obfuscate h reserved hother,
      Scoping.called, Scoping.called, hbinding, hname]

/-- In lines and with new names, a program is read back with these names and otherwise as it is, and
the names are new for local variables only. -/
theorem parse_print_obfuscated {rules : List Rule} (h : Printable program rules)
    {indent : String} (hindent : (Style.ofRules rules).indent = some indent)
    {reserved : List String} (hreserved : (Style.ofRules rules).reserved = some reserved)
    (name : Option String) :
    (∃ copy, parse (program.print rules).text name = .ok copy ∧
      copy.unplaced = ⟨relabelStatements
        (.unplaced fun id => (program.obfuscate reserved)[id.pos.offset]?.getD id.name)
        program.body⟩) ∧
    program.LocalRenaming fun id => (program.obfuscate reserved)[id.pos.offset]?.getD id.name := by
  obtain ⟨source, origin, hparse⟩ := h.parsed
  refine ⟨?_, obfuscate_localRenaming hparse reserved⟩
  have hpretty : (Style.ofRules rules).indent ≠ none := by
    rw [hindent]
    exact Option.some_ne_none indent
  obtain ⟨copy, hcopy, hbody⟩ := h.parse_worded (fun hcompact => absurd hcompact hpretty) name
  have hnames : program.renames (.ofRules rules) = program.obfuscate reserved := by
    rw [renames, hreserved]
  rw [wording, hnames] at hbody
  exact ⟨copy, hcopy, congrArg Program.mk hbody⟩

/-- The label, the members, the key and the string stay, and so do the names in the global scope. -/
theorem parse_print_obfuscated_label : ∃ program,
    Printable program [.indent "  ", .obfuscate keywords] ∧
    (program.print [.indent "  ", .obfuscate keywords]).text =
      "p: for (q in o)\n  o.p = function(a, b) \x7b\n    return \x7b\n      p: a + b.q + q + \"p\"\n    \x7d;\n  \x7d;\n" ∧
    (∃ copy, parse (program.print [.indent "  ", .obfuscate keywords]).text none = .ok copy ∧
      copy.unplaced = ⟨relabelStatements
        (.unplaced fun id => (program.obfuscate keywords)[id.pos.offset]?.getD id.name)
        program.body⟩) ∧
    program.LocalRenaming fun id => (program.obfuscate keywords)[id.pos.offset]?.getD id.name := by
  have hparse : ((parse "p:for(q in o)o.p=function(r,s)\x7breturn\x7bp:r+s.q+q+\"p\"\x7d\x7d" none).toOption.any fun program =>
      (program.print [.indent "  ", .obfuscate keywords]).text ==
        "p: for (q in o)\n  o.p = function(a, b) \x7b\n    return \x7b\n      p: a + b.q + q + \"p\"\n    \x7d;\n  \x7d;\n") = true := by
    decide +kernel
  obtain ⟨program, h, htext⟩ := exists_ok_of_any hparse
  have hprintable : Printable program [.indent "  ", .obfuscate keywords] := by
    refine ⟨⟨_, _, h⟩, ?_, ?_⟩
    · intro indent hindent c hc
      obtain rfl : indent = "  " := by simpa using hindent
      have hblank : "  ".toList.all (· == ' ') = true := rfl
      exact beq_iff_eq.mp (List.all_eq_true.mp hblank c hc)
    · rintro _ ⟨⟩ word hword
      exact hword
  exact ⟨program, hprintable, beq_iff_eq.mp htext,
    parse_print_obfuscated hprintable rfl rfl none⟩

end Program
end EcmaPress

import EcmaPress.Proofs.LocalNames
import EcmaPress.Text.Escape

/-!
# Variables and their spellings

A name may be spelled with escapes, and all spellings denote one variable: that of the innermost
scope that binds the name in any of them. Bindings are told apart by their spelling as it stands, so
a variable is renamed as a whole if it is written in one spelling, and may be torn apart if it is
not.
-/

namespace EcmaPress

open BindingEvent

/-- The first hit of a test is that of a narrower one, or it fails this and stands before its first
hit. -/
theorem find?_narrower {α : Type} [DecidableEq α] {p q : α → Bool}
    (hpq : ∀ x, q x = true → p x = true) {xs : List α} {x : α} (h : xs.find? p = some x) :
    xs.find? q = some x ∨ q x = false ∧ x ∈ xs.takeWhile fun y => some y != xs.find? q := by
  induction xs with
  | nil => cases h
  | cons first xs ih =>
    cases hq : q first with
    | true =>
      rw [List.find?_cons_of_pos (hpq first hq)] at h
      exact .inl ((List.find?_cons_of_pos hq).trans h)
    | false =>
      have hfind : (first :: xs).find? q = xs.find? q := List.find?_cons_of_neg (by simp [hq])
      rw [hfind, takeWhile_find?_cons hq, List.mem_cons]
      cases hp : p first with
      | true =>
        rw [List.find?_cons_of_pos hp] at h
        obtain rfl := Option.some.inj h
        exact .inr ⟨hq, .inl rfl⟩
      | false =>
        rw [List.find?_cons_of_neg (by simp [hp])] at h
        exact (ih h).imp_right fun hmissed => ⟨hmissed.1, .inr hmissed.2⟩

namespace Scoping

variable {s : Scoping} {e : BindingEvent} {events : List BindingEvent} {n : Nat} {name : String}

/-! ### Where names are bound -/

/-- What is bound after an event was bound before, or is bound by the event in its target. -/
theorem mem_bound_step (h : name ∈ (s.step e).bound n) : name ∈ s.bound n ∨
    ∃ id, e.id? = some id ∧ id.name = name ∧ (s.target e).head? = some n := by
  obtain ⟨scope, hscope, hname⟩ := mem_bound.mp h
  have hnamed {id : Identifier} (he : e.id? = some id) : name ∈ s.bound n ∨
      ∃ id, e.id? = some id ∧ id.name = name ∧ (s.target e).head? = some n := by
    rw [step_named he] at hscope
    obtain ⟨old, hold, rfl⟩ := Option.map_eq_some_iff.mp ((getElem?_bindIn ..).symm.trans hscope)
    split at hname
    · next htarget =>
      rcases Scope.mem_bind.mp hname with hname | rfl
      · exact .inl (mem_bound.mpr ⟨old, hold, hname⟩)
      · exact .inr ⟨id, he, rfl, htarget⟩
    · exact .inl (mem_bound.mpr ⟨old, hold, hname⟩)
  cases e with
  | enter kind =>
    rw [step, Array.getElem?_push] at hscope
    split at hscope
    · obtain rfl := Option.some.inj hscope
      cases hname
    · exact .inl (mem_bound.mpr ⟨scope, hscope, hname⟩)
  | leave => exact .inl h
  | bind id | hoist id | use id => exact hnamed rfl
  | lookUp =>
    rw [step_lookUp] at hscope
    obtain ⟨old, hold, rfl⟩ := Option.map_eq_some_iff.mp ((getElem?_exposed ..).symm.trans hscope)
    refine .inl (mem_bound.mpr ⟨old, hold, ?_⟩)
    split at hname <;> exact hname

/-- Nothing is bound before a walk. -/
theorem bound_start (n : Nat) : ({} : Scoping).bound n = [] := by
  cases n <;> simp [bound]

/-- What a walk binds occurs in it: in the scope itself, or where it is declared for this scope. -/
theorem mem_bound_foldl (h : name ∈ (events.foldl step s).bound n) : name ∈ s.bound n ∨
    ∃ o ∈ (events.foldl step s).occurrences, o.id.name = name ∧
      (o.chain.head? = some n ∨ (o, some n) ∈ s.declared events) := by
  induction events generalizing s with
  | nil => exact .inl h
  | cons e events ih =>
    rw [List.foldl_cons] at h ⊢
    rcases ih h with hfirst | ⟨o, ho, hname, hplace⟩
    · rcases mem_bound_step hfirst with hbefore | ⟨id, hid, hname, htarget⟩
      · exact .inl hbefore
      · refine .inr
          ⟨⟨id, s.chain⟩, (Grows.run events _).occurrences _ (mem_occurrences hid), hname, ?_⟩
        cases e with
        | bind id' => exact .inl htarget
        | hoist id' =>
          obtain rfl := Option.some.inj hid
          refine .inr (List.mem_append_left _ (List.mem_singleton.mpr ?_))
          rw [← htarget]
          rfl
        | enter | leave | use | lookUp => cases htarget
    · exact .inr ⟨o, ho, hname, hplace.imp_right (List.mem_append_right _)⟩

/-! ### Variables -/

/-- The innermost scope that binds the name of an occurrence in some spelling. -/
def owner (s : Scoping) (o : Occurrence) : Option Nat :=
  o.chain.find? fun scope => (s.bound scope).any (sameName o.id.name)

/-- A scope that binds the name as it is spelled binds it in some spelling. -/
theorem any_sameName {name : String} (h : (s.bound n).contains name = true) :
    (s.bound n).any (sameName name) = true :=
  List.any_eq_true.mpr ⟨name, List.contains_iff_mem.mp h, sameName_refl name⟩

/-- An occurrence is bound by its owner if that binds the name in this spelling. -/
theorem binding_of_owner {o : Occurrence} (howner : s.owner o = some n)
    (hbound : o.id.name ∈ s.bound n) : s.binding o = some n := by
  rcases find?_narrower (fun _ => any_sameName) howner with hbinding | ⟨hmissed, -⟩
  · exact hbinding
  · rw [List.contains_iff_mem.mpr hbound] at hmissed
    cases hmissed

/-- What a scope owns whose names are kept is kept. -/
theorem Sound.called_owned (h : s.Sound) (reserved : List String) {o : Occurrence}
    (ho : o ∈ s.occurrences) (howner : s.owner o = some n) {scope : Scope}
    (hscope : s.scopes[n]? = some scope) (hfixed : scope.isFixed = true) :
    s.called reserved o = o.id.name := by
  rcases find?_narrower (fun _ => any_sameName) howner with hbinding | ⟨-, hbefore⟩
  · rw [called, show s.binding o = some n from hbinding]
    exact newName_fixed hscope hfixed _
  · exact h.called_fixed ho hscope hfixed hbefore

end Scoping

namespace Program

/-- An occurrence of what a scope declares under a name, in whichever spelling: one that the scope
owns, or one that is declared for the scope. -/
structure IsOccurrence (program : Program) (scope : Nat) (name : String) (o : Occurrence) :
    Prop where
  occurs : o ∈ program.scoping.occurrences
  named : sameName o.id.name name = true
  place : program.scoping.owner o = some scope ∨
    (o, some scope) ∈ ({} : Scoping).declared program.events

variable {source : String} {file : Option String} {program : Program} {n : Nat} {o : Occurrence}

/-- A variable that is written in one spelling is bound in this spelling. -/
theorem mem_bound_of_owner (howner : program.scoping.owner o = some n)
    (hspelled : ∀ other, program.IsOccurrence n o.id.name other → other.id.name = o.id.name) :
    o.id.name ∈ program.scoping.bound n := by
  obtain ⟨name, hname, hsame⟩ :
      ∃ name ∈ program.scoping.bound n, sameName o.id.name name = true := by
    simpa using List.find?_some howner
  rcases Scoping.mem_bound_foldl hname with hstart | ⟨other, hother, rfl, hplace⟩
  · rw [Scoping.bound_start] at hstart
    cases hstart
  · refine hspelled other ⟨hother, sameName_symm hsame, hplace.imp_left fun hhead => ?_⟩ ▸ hname
    obtain ⟨rest, hchain⟩ := List.head?_eq_some_iff.mp hhead
    rw [Scoping.owner, hchain]
    exact List.find?_cons_of_pos (Scoping.any_sameName (List.contains_iff_mem.mpr hname))

/-- All occurrences of a variable that is written in one spelling, or whose scope keeps its names,
are given and printed by the same short name, or all of them keep theirs. This holds if no
declaration of the variable is hidden in a handler. -/
theorem obfuscate_alike (h : parse source file = .ok program)
    (howner : program.scoping.owner o = some n)
    (hspelled : (∀ other, program.IsOccurrence n o.id.name other → other.id.name = o.id.name) ∨
      program.scoping.scopes[n]?.any Scope.isFixed = true)
    (hvisible : ∀ other, program.IsOccurrence n o.id.name other → other ∈ program.hidden →
      program.scoping.owner other = some n) (reserved : List String) :
    ∃ index? : Option Nat, ∀ other, program.IsOccurrence n o.id.name other →
      program.Given reserved other.id (index?.map shortName) := by
  have hsound := Scoping.Sound.ofEvents program.events
  have hplace {other : Occurrence} (hother : program.IsOccurrence n o.id.name other) :
      program.scoping.owner other = some n ∨ program.scoping.binding other = some n := by
    rcases hother.place with hplace | hdeclared
    · exact .inl hplace
    · by_cases hhidden : other ∈ program.hidden
      · exact .inl (hvisible other hother hhidden)
      · exact .inr (Scoping.binding_of_declared hdeclared hhidden)
  rcases hspelled with hspelled | hfixed
  · have hbound := mem_bound_of_owner howner hspelled
    have hcalled {other : Occurrence} (hother : program.IsOccurrence n o.id.name other) :
        program.scoping.called reserved other =
          Scoping.newName (program.scoping.tables reserved) (some n) o.id.name := by
      have hname := hspelled other hother
      have hbinding : program.scoping.binding other = some n :=
        (hplace hother).elim (Scoping.binding_of_owner · (hname ▸ hbound)) id
      rw [Scoping.called, hbinding, hname]
    by_cases hnew : Scoping.newName (program.scoping.tables reserved) (some n) o.id.name = o.id.name
    · refine ⟨none, fun other hother => given_of_kept h hother.occurs ?_⟩
      rw [hcalled hother, hnew, hspelled other hother]
    · obtain ⟨-, index, hindex⟩ := Scoping.newName_new hnew
      refine ⟨some index, fun other hother => given_of_called h hother.occurs ?_⟩
      refine (if_neg ?_).trans ?_
      · rwa [hcalled hother, hspelled other hother, beq_iff_eq]
      · rw [hcalled hother, hindex]
        rfl
  · obtain ⟨scope, hscope, hfixed⟩ := (Option.any_eq_true ..).mp hfixed
    refine ⟨none, fun other hother => given_of_kept h hother.occurs ?_⟩
    rcases hplace hother with howner | hbinding
    · exact hsound.called_owned reserved hother.occurs howner hscope hfixed
    · rw [Scoping.called, hbinding]
      exact Scoping.newName_fixed hscope hfixed _

/-- All names are spelled with the same escape, the declaration and both references. -/
theorem obfuscate_alike_escaped : ∃ program o,
    parse "function f(b\\u0061r)\x7breturn function()\x7breturn b\\u0061r\x7d(b\\u0061r)\x7d" none =
      .ok program ∧
    program.scoping.owner o = some 1 ∧ program.IsOccurrence 1 o.id.name o ∧
    ∃ index? : Option Nat, ∀ other, program.IsOccurrence 1 o.id.name other →
      program.Given reservedWords other.id (index?.map shortName) := by
  have hparse : ((parse
      "function f(b\\u0061r)\x7breturn function()\x7breturn b\\u0061r\x7d(b\\u0061r)\x7d"
      none).toOption.any fun program => program.hidden.isEmpty && program.scoping.occurrences.any fun o =>
        program.scoping.owner o == some 1 && program.scoping.occurrences.all fun other =>
          !sameName other.id.name o.id.name || other.id.name == o.id.name) = true := by
    decide +kernel
  obtain ⟨program, h, hrest⟩ := exists_ok_of_any hparse
  obtain ⟨hhidden, hoccurrences⟩ := Bool.and_eq_true_iff.mp hrest
  obtain ⟨o, ho, hcheck⟩ := Array.any_eq_true'.mp hoccurrences
  obtain ⟨howner, hspelled⟩ := Bool.and_eq_true_iff.mp hcheck
  rw [beq_iff_eq] at howner
  rw [Array.all_eq_true'] at hspelled
  refine ⟨program, o, h, howner, ⟨ho, sameName_refl _, .inl howner⟩,
    obfuscate_alike h howner (.inl fun other hother => ?_) (fun other _ hmem => ?_) reservedWords⟩
  · simpa [hother.named] using hspelled other hother.occurs
  · rw [List.isEmpty_iff.mp hhidden] at hmem
    cases hmem

/-- A name that is declared without an escape and used with one: the parameter is renamed, and the
reference keeps its name, which denotes a global variable then. -/
theorem escape_unseen : ∃ program o other,
    parse "function f(bar)\x7breturn b\\u0061r\x7d" none = .ok program ∧
    program.scoping.owner o = some 1 ∧ program.IsOccurrence 1 o.id.name o ∧
    program.IsOccurrence 1 o.id.name other ∧
    (program.obfuscate reservedWords)[o.id.pos.offset]? = none ∧
    (program.obfuscate reservedWords)[other.id.pos.offset]? = some "a" ∧
    ¬ ∃ index? : Option Nat, ∀ other, program.IsOccurrence 1 o.id.name other →
      program.Given reservedWords other.id (index?.map shortName) := by
  have hparse : ((parse "function f(bar)\x7breturn b\\u0061r\x7d" none).toOption.any fun program =>
      program.scoping.occurrences.any fun o => program.scoping.owner o == some 1 &&
        (program.obfuscate (keywords ++ strictKeywords))[o.id.pos.offset]? == none &&
        program.scoping.occurrences.any fun other => sameName other.id.name o.id.name &&
          program.scoping.owner other == some 1 &&
          (program.obfuscate (keywords ++ strictKeywords))[other.id.pos.offset]? == some "a") = true := by
    decide +kernel
  obtain ⟨program, h, hrest⟩ := exists_ok_of_any hparse
  rw [← obfuscate_reservedWords] at hrest
  obtain ⟨o, ho, hcheck⟩ := Array.any_eq_true'.mp hrest
  simp only [Bool.and_eq_true, beq_iff_eq] at hcheck
  obtain ⟨⟨howner, hnone⟩, hothers⟩ := hcheck
  obtain ⟨other, hother, hcheck⟩ := Array.any_eq_true'.mp hothers
  simp only [Bool.and_eq_true, beq_iff_eq] at hcheck
  obtain ⟨⟨hsame, howner'⟩, hnew⟩ := hcheck
  have hfirst : program.IsOccurrence 1 o.id.name o := ⟨ho, sameName_refl _, .inl howner⟩
  have hsecond : program.IsOccurrence 1 o.id.name other := ⟨hother, hsame, .inl howner'⟩
  refine ⟨program, o, other, h, howner, hfirst, hsecond, hnone, hnew, ?_⟩
  rintro ⟨index?, halike⟩
  have hsplit := (halike o hfirst).renames.symm.trans hnone
  rw [(halike other hsecond).renames, hsplit] at hnew
  cases hnew

end Program
end EcmaPress

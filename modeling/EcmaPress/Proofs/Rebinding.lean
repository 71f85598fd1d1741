import EcmaPress.Proofs.Occurrences
import EcmaPress.Proofs.Rescoping

/-!
# Renaming keeps bindings

A program with its new names has the scopes of the program. Each occurrence is bound where it was
bound before, two of them denote the same binding if they did before, and the global scope binds the
same names. This holds unless a variable is declared inside a handler under the name of the
parameter: what the declaration names is then the parameter, and it is renamed like this, while the
variable that it declares lies in a scope around the handler.
-/

namespace EcmaPress

open BindingEvent

namespace Scoping

/-! ### Hidden declarations -/

/-- The variables and functions that events declare, as they occur, each with the scope that
receives it. -/
def declared (s : Scoping) : List BindingEvent → List (Occurrence × Option Nat)
  | [] => []
  | e :: events =>
    (match e with
      | .hoist id => [(⟨id, s.chain⟩, s.variableChain.head?)]
      | _ => []) ++
      (s.step e).declared events

theorem mem_declared (s : Scoping) (before : List BindingEvent) (id : Identifier)
    (after : List BindingEvent) :
    (⟨id, (before.foldl step s).chain⟩, (before.foldl step s).variableChain.head?) ∈
      s.declared (before ++ hoist id :: after) := by
  induction before generalizing s with
  | nil => exact List.mem_append_left _ (List.mem_singleton_self _)
  | cons e before ih => exact List.mem_append_right _ (ih (s.step e))

/-- The declarations whose names are bound by another scope than the one that receives them: by a
handler that they stand in. -/
def hidden (events : List BindingEvent) : List Occurrence :=
  (((({} : Scoping).declared events).filter fun (o, scope) =>
    (ofEvents events).binding o != scope).map Prod.fst)

variable {before after events : List BindingEvent} {e : BindingEvent} {id : Identifier}

/-- A declaration that is not hidden is bound by the scope that receives it. -/
theorem binding_of_declared {o : Occurrence} {scope : Option Nat}
    (h : (o, scope) ∈ ({} : Scoping).declared events) (hvisible : o ∉ hidden events) :
    (ofEvents events).binding o = scope := by
  by_contra hne
  apply hvisible
  exact List.mem_map.mpr ⟨(o, scope), List.mem_filter.mpr ⟨h, bne_iff_ne.mpr hne⟩, rfl⟩

/-- The name of an event occurs in the whole walk, where the event stands. -/
theorem mem_occurrences_of_split (hsplit : events = before ++ e :: after) (he : e.id? = some id) :
    ⟨id, (ofEvents before).chain⟩ ∈ (ofEvents events).occurrences := by
  rw [hsplit, ofEvents, List.foldl_append, List.foldl_cons]
  exact (Grows.run after _).occurrences _ (mem_occurrences he)

/-- Unless it is hidden, a declaration is an occurrence of what it declares. -/
theorem binding_eq_target (hhidden : hidden events = []) (hsplit : events = before ++ e :: after)
    (he : e.id? = some id) {n : Nat} (hn : ((ofEvents before).target e).head? = some n) :
    n < (ofEvents before).scopes.size ∧
      (ofEvents events).binding ⟨id, (ofEvents before).chain⟩ = some n := by
  obtain ⟨around, hnested⟩ := Nested.ofEvents before
  have hlt : ∀ m ∈ (ofEvents before).chain, m < (ofEvents before).scopes.size :=
    fun m => Linked.lt hnested.outward hnested.chain
  cases e with
  | enter | leave | use | lookUp => cases hn
  | bind id' =>
    obtain rfl := Option.some.inj he
    obtain ⟨rest, hchain⟩ := List.head?_eq_some_iff.mp hn
    have hchain' : (ofEvents before).chain = n :: rest := hchain
    have hsize := hlt n (by rw [hchain']; exact List.mem_cons_self ..)
    have hbound : id'.name ∈ (ofEvents events).bound n := by
      rw [hsplit, ofEvents, List.foldl_append, List.foldl_cons]
      exact (Grows.run after _).bound n _ (mem_bound_target rfl hchain hsize)
    refine ⟨hsize, ?_⟩
    have hfirst : ((ofEvents events).bound n).contains id'.name = true :=
      List.contains_iff_mem.mpr hbound
    rw [hchain']
    simp only [binding, resolve, List.find?_cons, hfirst]
  | hoist id' =>
    obtain rfl := Option.some.inj he
    have hn' : (ofEvents before).variableChain.head? = some n := hn
    refine ⟨hlt n ((List.dropWhile_sublist _).subset (List.mem_of_head? hn')), ?_⟩
    have hmem := mem_declared {} before id' after
    rw [← hsplit] at hmem
    rw [hidden, List.map_eq_nil_iff, List.filter_eq_nil_iff] at hhidden
    have hsame := hhidden _ hmem
    rw [bne_iff_ne, not_not] at hsame
    exact hsame.trans hn'

/-- What is looked up by its spelling keeps its name. -/
theorem called_of_lookUp (reserved : List String)
    (hsplit : events = before ++ BindingEvent.lookUp :: use id :: after) :
    (ofEvents events).called reserved ⟨id, (ofEvents before).chain⟩ = id.name := by
  obtain ⟨around, hnested⟩ := Nested.ofEvents before
  unfold called
  cases hbinding : (ofEvents events).binding ⟨id, (ofEvents before).chain⟩ with
  | none => rfl
  | some n =>
    have hmem : n ∈ (ofEvents before).chain := mem_chain_of_binding hbinding
    have hdynamic : (ofEvents events).isDynamic n = true := by
      rw [hsplit, ofEvents, List.foldl_append, List.foldl_cons]
      refine (Grows.run (use id :: after) _).dynamic n ((isDynamic_lookUp n).mpr (.inr ⟨hmem, ?_⟩))
      exact Linked.lt hnested.outward hnested.chain hmem
    obtain ⟨scope, hscope, hfixed⟩ := (Option.any_eq_true ..).mp hdynamic
    exact newName_fixed hscope (Bool.or_eq_true_iff.mpr (.inr hfixed)) _

/-- The walk over a tree whose names are exchanged for the new ones. -/
theorem follows_renamed {events' : List BindingEvent} (reserved : List String) (r : Relabeling)
    (hhidden : hidden events = [])
    (hcalled : ∀ o ∈ (ofEvents events).occurrences, r.name o.id = (ofEvents events).called reserved o)
    (h : Reworded r events events') :
    Follows (fun n => newName ((ofEvents events).tables reserved) (some n)) r (ofEvents events)
      (ofEvents events') := by
  refine Follows.run h .start ?_ ?_ ?_
  · intro before e after hsplit id he n hn
    obtain ⟨hlt, hbinding⟩ := binding_eq_target hhidden hsplit he hn
    refine ⟨hlt, (hcalled _ (mem_occurrences_of_split hsplit he)).trans ?_⟩
    rw [called, hbinding]
  · exact fun n x hx y hy => (Sound.ofEvents events).injective hx hy
  · intro before id after hsplit hname
    have hsplit' : events = (before ++ [BindingEvent.lookUp]) ++ use id :: after := by
      rw [hsplit, List.append_assoc]
      rfl
    have hmem := mem_occurrences_of_split hsplit' rfl
    have hchain : (ofEvents (before ++ [BindingEvent.lookUp])).chain = (ofEvents before).chain := by
      rw [ofEvents, List.foldl_append]
      rfl
    rw [hchain] at hmem
    rw [hcalled _ hmem, called_of_lookUp reserved hsplit, hname]

/-! ### The same bindings -/

/-- What an occurrence denotes: the scope that binds its name, if there is one, and the name. -/
def denotation (s : Scoping) (o : Occurrence) : Option Nat × String :=
  (s.binding o, o.id.name)

/-- Two walks go through the same scopes and meet the same occurrences, under other names. Each
occurrence is bound in the same scope by both, and two of them denote one binding by both or by
none. The global scope binds the same names. -/
structure BindsAlike (s t : Scoping) : Prop where
  kinds : t.scopes.map Scope.kind = s.scopes.map Scope.kind
  places : t.occurrences.map (fun o => (o.id.pos, o.chain)) =
    s.occurrences.map fun o => (o.id.pos, o.chain)
  bindings : t.occurrences.map t.binding = s.occurrences.map s.binding
  denotations : ∀ first ∈ s.occurrences.zip t.occurrences, ∀ second ∈ s.occurrences.zip t.occurrences,
    t.denotation first.2 = t.denotation second.2 ↔ s.denotation first.1 = s.denotation second.1
  global : t.bound 0 = s.bound 0

/-- A walk that follows another one with its new names binds alike. -/
theorem Sound.bindsAlike {s t : Scoping} (hsound : s.Sound) (reserved : List String)
    (name : Identifier → String)
    (hcalled : ∀ o ∈ s.occurrences, name o.id = s.called reserved o)
    (h : Follows (fun n => newName (s.tables reserved) (some n)) (.ofNames name) s t) :
    s.BindsAlike t := by
  have hbinding : ∀ o ∈ s.occurrences,
      t.binding ⟨(Relabeling.ofNames name).identifier o.id, o.chain⟩ = s.binding o := by
    intro o ho
    have hresolve : t.resolve o.chain (s.called reserved o) = s.binding o :=
      hsound.resolve_called h.bound ho
    rw [← hresolve, ← hcalled o ho]
    rfl
  have hdenotes : ∀ pair ∈ s.occurrences.zip t.occurrences, pair.1 ∈ s.occurrences ∧
      t.denotation pair.2 = (s.binding pair.1, s.called reserved pair.1) := by
    rintro ⟨o, o'⟩ hpair
    rw [h.occurrences, ← Array.mem_toList_iff, Array.toList_zip, Array.toList_map, List.zip_map_right,
      List.zip, List.zipWith_self, List.map_map, List.mem_map] at hpair
    obtain ⟨o₁, ho₁, heq⟩ := hpair
    obtain ⟨rfl, rfl⟩ := Prod.mk.inj heq
    have ho := Array.mem_toList_iff.mp ho₁
    exact ⟨ho, Prod.ext (hbinding o₁ ho) (hcalled o₁ ho)⟩
  refine ⟨?_, ?_, ?_, ?_, ?_⟩
  · refine Array.ext_getElem? fun n => ?_
    rw [Array.getElem?_map, Array.getElem?_map, h.kinds]
  · rw [h.occurrences, Array.map_map]
    rfl
  · rw [h.occurrences, Array.map_map]
    exact Array.map_congr_left hbinding
  · intro first hfirst second hsecond
    obtain ⟨hmem, hdenotes₁⟩ := hdenotes first hfirst
    obtain ⟨hmem', hdenotes₂⟩ := hdenotes second hsecond
    rw [hdenotes₁, hdenotes₂, denotation, denotation, Prod.mk.injEq, Prod.mk.injEq]
    refine and_congr_right fun hsame => ?_
    rw [called, called, ← hsame]
    constructor
    · intro heq
      cases hscope : s.binding first.1 with
      | none => rwa [hscope] at heq
      | some n =>
        rw [hscope] at heq
        exact hsound.injective (mem_bound_of_binding hscope)
          (mem_bound_of_binding (hsame ▸ hscope)) heq
    · exact fun heq => heq ▸ rfl
  · rw [h.bound]
    refine (List.map_congr_left fun name hname => ?_).trans (List.map_id _)
    obtain ⟨scope, hscope, -⟩ := mem_bound.mp hname
    refine newName_fixed hscope (Bool.or_eq_true_iff.mpr (.inl ?_)) name
    exact Option.isNone_iff_eq_none.mpr ((hsound.global 0 scope hscope).mpr rfl)

end Scoping

namespace Program

/-- The variables and functions that are declared inside a handler under the name of its
parameter, as they occur. -/
def hidden (program : Program) : List Occurrence :=
  Scoping.hidden program.events

/-- A program with new names, none of which is reserved. -/
def obfuscated (program : Program) (reserved : List String) : Program :=
  program.rename fun id => (program.obfuscate reserved)[id.pos.offset]?.getD id.name

theorem obfuscate_reservedWords (program : Program) :
    program.obfuscate reservedWords = program.obfuscate (keywords ++ strictKeywords) :=
  Scoping.renames_congr (fun _ => List.mem_mergeSort) program.scoping

theorem obfuscated_reservedWords (program : Program) :
    program.obfuscated reservedWords = program.obfuscated (keywords ++ strictKeywords) := by
  rw [obfuscated, obfuscated, obfuscate_reservedWords]

variable {source : String} {name : Option String} {program : Program}

/-- Each occurrence in a parsed program is given the name that its binding is called. -/
theorem getElem?_obfuscate (h : parse source name = .ok program) (reserved : List String)
    {o : Occurrence} (ho : o ∈ program.scoping.occurrences) :
    (program.obfuscate reserved)[o.id.pos.offset]?.getD o.id.name =
      program.scoping.called reserved o :=
  Scoping.getElem?_renames (distinct h) ho

/-- New names keep the bindings of a program, if none of its declarations is hidden. -/
theorem obfuscated_bindsAlike (h : parse source name = .ok program) (hhidden : program.hidden = [])
    (reserved : List String) :
    program.scoping.BindsAlike (program.obfuscated reserved).scoping := by
  let new : Identifier → String := fun id =>
    (program.obfuscate reserved)[id.pos.offset]?.getD id.name
  have hcalled : ∀ o ∈ program.scoping.occurrences, new o.id = program.scoping.called reserved o :=
    fun _ => getElem?_obfuscate h reserved
  have hfollows := Scoping.follows_renamed reserved (.ofNames new) hhidden hcalled
    (statements_reworded _ program.body)
  exact (Scoping.Sound.ofEvents program.events).bindsAlike reserved new hcalled hfollows

theorem obfuscated_bindsAlike_catch : ∃ program,
    parse "function f(x) \x7b try \x7b var y; \x7d catch (x) \x7b y = x; \x7d return g(x, y); \x7d" none =
      .ok program ∧
    (program.obfuscate reservedWords).toList = [(11, "a"), (26, "b"), (38, "a"), (43, "b"), (47, "a"),
      (61, "a"), (64, "b")] ∧
    program.scoping.BindsAlike (program.obfuscated reservedWords).scoping := by
  have hparse : ((parse
      "function f(x) \x7b try \x7b var y; \x7d catch (x) \x7b y = x; \x7d return g(x, y); \x7d"
      none).toOption.any fun program =>
        program.hidden.isEmpty && (program.obfuscate (keywords ++ strictKeywords)).toList ==
          [(11, "a"), (26, "b"), (38, "a"), (43, "b"), (47, "a"), (61, "a"), (64, "b")]) = true := by
    decide +kernel
  obtain ⟨program, h, hrest⟩ := exists_ok_of_any hparse
  obtain ⟨hhidden, hrenames⟩ := Bool.and_eq_true_iff.mp hrest
  rw [← obfuscate_reservedWords] at hrenames
  exact ⟨program, h, beq_iff_eq.mp hrenames,
    obfuscated_bindsAlike h (List.isEmpty_iff.mp hhidden) reservedWords⟩

/-- A global variable that is declared inside a handler under the name of its parameter gets the new
name of the parameter. -/
theorem hidden_renamed : ∃ program, parse "try\x7b\x7dcatch(e)\x7bvar e\x7d" none = .ok program ∧
    program.scoping.bound 0 = ["e"] ∧
    (program.obfuscated reservedWords).scoping.bound 0 = ["a"] ∧
    ¬ program.scoping.BindsAlike (program.obfuscated reservedWords).scoping := by
  have hparse : ((parse "try\x7b\x7dcatch(e)\x7bvar e\x7d" none).toOption.any fun program =>
      program.scoping.bound 0 == ["e"] &&
        (program.obfuscated (keywords ++ strictKeywords)).scoping.bound 0 == ["a"]) = true := by
    decide +kernel
  obtain ⟨program, h, hrest⟩ := exists_ok_of_any hparse
  obtain ⟨hold, hnew⟩ := Bool.and_eq_true_iff.mp hrest
  rw [beq_iff_eq] at hold hnew
  rw [← obfuscated_reservedWords] at hnew
  refine ⟨program, h, hold, hnew, fun halike => ?_⟩
  have hglobal := halike.global
  rw [hold, hnew] at hglobal
  exact absurd hglobal (by decide)

end Program
end EcmaPress

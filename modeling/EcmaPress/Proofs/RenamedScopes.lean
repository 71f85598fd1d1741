import EcmaPress.Proofs.Rebinding

/-!
# Scopes under their new names

Each scope of a program is given the new names of what it binds. With these scopes around it, an
occurrence that is called by its new name is resolved to the scope that bound it before. No two
names of a scope are called the same. The names of the global scope and of scopes with look-ups by
spelling stay as they are, and what any other scope binds is not reserved.
-/

namespace EcmaPress
namespace Scoping

/-- The scopes of a program with the new names of what they bind. Nothing else of them changes. -/
def renamed (s : Scoping) (reserved : List String) : Scoping :=
  { s with
    scopes := s.scopes.mapIdx fun n scope =>
      { scope with bound := scope.bound.map (newName (s.tables reserved) (some n)) } }

variable {s : Scoping} {reserved : List String}

theorem bound_renamed (n : Nat) : (s.renamed reserved).bound n =
    (s.bound n).map (newName (s.tables reserved) (some n)) := by
  unfold bound renamed
  rw [Array.getElem?_mapIdx]
  cases s.scopes[n]? with
  | none => rfl
  | some scope => rfl

/-- No new name captures. Each occurrence is called what its binding is called, or keeps its name
if nothing binds it, and the scopes under their new names resolve this to the same binding. -/
structure CaptureFree (s : Scoping) (reserved : List String) (name : Occurrence → String) :
    Prop where
  called : ∀ o ∈ s.occurrences,
    name o = newName (s.tables reserved) (s.resolve o.chain o.id.name) o.id.name
  resolve : ∀ o ∈ s.occurrences,
    (s.renamed reserved).resolve o.chain (name o) = s.resolve o.chain o.id.name
  distinct : ∀ n, ((s.renamed reserved).bound n).Nodup
  fixed : ∀ (n : Nat) (scope : Scope), s.scopes[n]? = some scope → scope.isFixed = true →
    (s.renamed reserved).bound n = scope.bound
  unreserved : ∀ (n : Nat) (scope : Scope), s.scopes[n]? = some scope → scope.isFixed = false →
    ∀ new ∈ (s.renamed reserved).bound n, new ∉ reserved

/-- The new names of a scope are not reserved. -/
theorem Sound.unreserved (h : s.Sound) {n : Nat} {scope : Scope} (hscope : s.scopes[n]? = some scope)
    (hloose : scope.isFixed = false) {new : String} (hnew : new ∈ (s.renamed reserved).bound n) :
    new ∉ reserved := by
  rw [bound_renamed, map_newName h.outwardly hscope hloose (h.nodup n scope hscope)] at hnew
  intro hmem
  apply (mem_freshNames hnew).1
  rw [List.mem_eraseDups]
  exact List.mem_append_left _ hmem

/-- The scopes under their new names capture nothing. -/
theorem Sound.captureFree (h : s.Sound) (reserved : List String) :
    s.CaptureFree reserved (s.called reserved) := by
  refine ⟨fun _ _ => rfl, ?_, ?_, ?_, ?_⟩
  · intro o ho
    exact h.resolve_called bound_renamed ho
  · intro n
    rw [bound_renamed]
    cases hscope : s.scopes[n]? with
    | none =>
      rw [bound, hscope]
      exact List.nodup_nil
    | some scope =>
      apply List.Nodup.map_on
      · exact fun x hx y hy heq => h.injective hx hy heq
      · rw [bound_eq hscope]
        exact h.nodup n scope hscope
  · intro n scope hscope hfixed
    rw [bound_renamed, bound_eq hscope]
    refine (List.map_congr_left fun name _ => ?_).trans (List.map_id _)
    exact newName_fixed hscope hfixed name
  · intro n scope hscope hloose new hnew
    exact h.unreserved hscope hloose hnew

end Scoping

namespace Program

variable {source : String} {name : Option String} {program : Program}

/-- The new names of a parsed program, whichever names are reserved, capture nothing. -/
theorem obfuscate_captureFree (h : parse source name = .ok program) (reserved : List String) :
    program.scoping.CaptureFree reserved fun o =>
      (program.obfuscate reserved)[o.id.pos.offset]?.getD o.id.name := by
  have hsound := (Scoping.Sound.ofEvents program.events).captureFree reserved
  have hcalled : ∀ o ∈ program.scoping.occurrences,
      (program.obfuscate reserved)[o.id.pos.offset]?.getD o.id.name =
        program.scoping.called reserved o :=
    fun _ => getElem?_obfuscate h reserved
  refine ⟨hcalled, ?_, hsound.distinct, hsound.fixed, hsound.unreserved⟩
  intro o ho
  rw [hcalled o ho]
  exact hsound.resolve o ho

/-- Names are looked up by their spelling in `d` and so in `f` around it: `b` stays, and the function
beside `d` avoids it. -/
theorem obfuscate_captureFree_eval : ∃ program,
    parse "function f(b)\x7bfunction d(y)\x7beval(y)\x7dreturn function(z)\x7btry\x7bz(b)\x7dcatch(e)\x7bz(e,b)\x7d\x7d\x7d"
      none = .ok program ∧
    (program.obfuscate ["a"]).toList = [(52, "c"), (59, "c"), (70, "d"), (73, "c"), (75, "d")] ∧
    program.scoping.CaptureFree ["a"] fun o =>
      (program.obfuscate ["a"])[o.id.pos.offset]?.getD o.id.name := by
  have hparse : ((parse
      "function f(b)\x7bfunction d(y)\x7beval(y)\x7dreturn function(z)\x7btry\x7bz(b)\x7dcatch(e)\x7bz(e,b)\x7d\x7d\x7d"
      none).toOption.any fun program =>
        (program.obfuscate ["a"]).toList == [(52, "c"), (59, "c"), (70, "d"), (73, "c"), (75, "d")]) = true := by
    decide +kernel
  obtain ⟨program, h, hrenames⟩ := exists_ok_of_any hparse
  exact ⟨program, h, beq_iff_eq.mp hrenames, obfuscate_captureFree h ["a"]⟩

end Program
end EcmaPress

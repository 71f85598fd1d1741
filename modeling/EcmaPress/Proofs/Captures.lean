import EcmaPress.Proofs.Tables

/-!
# No captures

What an occurrence is called after renaming is the new name of no other binding that it sees. So it
is resolved to the same scope as before, if every scope binds the new names of what it bound.
-/

namespace EcmaPress

/-! ### First hits in a list -/

section

variable {α : Type} [DecidableEq α] {p q : α → Bool} {xs : List α} {x : α}

/-- If the first of a list is no hit, it stands before the first hit. -/
theorem takeWhile_find?_cons {first : α} (hp : p first = false) (xs : List α) :
    (first :: xs).takeWhile (fun y => some y != xs.find? p) =
      first :: xs.takeWhile fun y => some y != xs.find? p := by
  refine List.takeWhile_cons_of_pos (bne_iff_ne.mpr fun heq => ?_)
  rw [List.find?_some heq.symm] at hp
  cases hp

/-- What stands before the first hit is no hit, and stands before it. -/
theorem mem_takeWhile_find {R : α → α → Prop} (h : xs.Pairwise R)
    (hmem : x ∈ xs.takeWhile fun y => some y != xs.find? p) :
    p x = false ∧ ∀ hit ∈ xs.find? p, R x hit := by
  induction h with
  | nil => cases hmem
  | @cons first xs hfirst hxs ih =>
    cases hp : p first with
    | true =>
      rw [List.find?_cons_of_pos hp, List.takeWhile_cons_of_neg (by simp)] at hmem
      cases hmem
    | false =>
      rw [List.find?_cons_of_neg (by simp [hp])] at hmem ⊢
      rw [takeWhile_find?_cons hp] at hmem
      rcases List.mem_cons.mp hmem with rfl | hmem
      · exact ⟨hp, fun hit hhit => hfirst hit (List.mem_of_find?_eq_some hhit)⟩
      · exact ih hmem

/-- Another test has the same first hit if it fails on all that stands before it. -/
theorem find?_eq_of_takeWhile (hit : ∀ x ∈ xs.find? p, q x = true)
    (hbefore : ∀ x ∈ xs.takeWhile fun y => some y != xs.find? p, q x = false) :
    xs.find? q = xs.find? p := by
  induction xs with
  | nil => rfl
  | cons first xs ih =>
    cases hp : p first with
    | true =>
      rw [List.find?_cons_of_pos hp] at hit ⊢
      rw [List.find?_cons_of_pos (hit first rfl)]
    | false =>
      have hfind : (first :: xs).find? p = xs.find? p := List.find?_cons_of_neg (by simp [hp])
      rw [hfind] at hit hbefore ⊢
      rw [takeWhile_find?_cons hp] at hbefore
      have hq := hbefore first (List.mem_cons_self ..)
      rw [List.find?_cons_of_neg (by simp [hq]),
        ih hit fun x hx => hbefore x (List.mem_cons_of_mem _ hx)]

end

namespace Scoping

variable {s : Scoping} {reserved : List String}

/-- The scope that binds the name of an occurrence. -/
def binding (s : Scoping) (o : Occurrence) : Option Nat :=
  s.resolve o.chain o.id.name

/-- What an occurrence is called after renaming. -/
def called (s : Scoping) (reserved : List String) (o : Occurrence) : String :=
  newName (s.tables reserved) (s.binding o) o.id.name

theorem mem_bound_of_binding {o : Occurrence} {n : Nat} (h : s.binding o = some n) :
    o.id.name ∈ s.bound n := by
  simpa using List.find?_some h

theorem mem_chain_of_binding {o : Occurrence} {n : Nat} (h : s.binding o = some n) : n ∈ o.chain :=
  List.mem_of_find?_eq_some h

/-- What the walks over programs ensure of their scopes, as far as new names depend on it. -/
structure Sound (s : Scoping) : Prop where
  nodup : ∀ (n : Nat) (scope : Scope), s.scopes[n]? = some scope → scope.bound.Nodup
  global : ∀ (n : Nat) (scope : Scope), s.scopes[n]? = some scope → (scope.kind = none ↔ n = 0)
  outward : ∀ o ∈ s.occurrences, o.chain.Pairwise (· > ·)
  dynamic : ∀ o ∈ s.occurrences, o.chain.Pairwise fun n m =>
    s.isDynamic n = true → s.isDynamic m = true

theorem Sound.ofEvents (events : List BindingEvent) : Sound (ofEvents events) := by
  obtain ⟨around, h⟩ := Nested.ofEvents events
  refine ⟨fun _ _ => nodup_bound, fun _ _ => kind_eq_none, fun o ho => ?_, fun o ho => ?_⟩
  · exact Linked.pairwise h.outward (h.occurrences o ho) fun scope hscope outer =>
      Linked.lt (fun k hk => h.outward k (Nat.lt_trans hk hscope)) (h.outward scope hscope)
  · exact Linked.pairwise h.outward (h.occurrences o ho) h.dynamic

/-- What a scope must avoid: the names that occur in it and are bound around it. -/
theorem mem_outer {o : Occurrence} (ho : o ∈ s.occurrences) {n : Nat}
    (hn : n ∈ o.chain.takeWhile fun i => some i != s.binding o) :
    (s.binding o, o.id.name) ∈ outer s.resolved n := by
  refine List.mem_map.mpr ⟨(o, s.binding o), List.mem_filter.mpr ⟨?_, ?_⟩, rfl⟩
  · exact List.mem_map.mpr ⟨o, by simpa using ho, rfl⟩
  · exact List.contains_iff_mem.mpr hn

namespace Sound

variable (h : s.Sound)

include h

theorem outwardly : s.Outward := by
  rintro n entry hentry m hm
  obtain ⟨⟨o, binding⟩, hmem, rfl⟩ := List.mem_map.mp hentry
  obtain ⟨hresolved, hn⟩ := List.mem_filter.mp hmem
  obtain ⟨o, ho, heq⟩ := List.mem_map.mp hresolved
  obtain ⟨rfl, rfl⟩ := Prod.mk.inj heq
  exact (mem_takeWhile_find (h.outward o (by simpa using ho)) (List.contains_iff_mem.mp hn)).2 m hm

/-- Inside of a scope whose names stay as they are, names that are bound around it stay too. -/
theorem called_fixed {o : Occurrence} (ho : o ∈ s.occurrences) {n : Nat} {scope : Scope}
    (hscope : s.scopes[n]? = some scope) (hfixed : scope.isFixed = true)
    (hn : n ∈ o.chain.takeWhile fun i => some i != s.binding o) :
    s.called reserved o = o.id.name := by
  cases hbinding : s.binding o with
  | none => rw [called, hbinding, newName]
  | some m =>
    have hlt := (mem_takeWhile_find (h.outward o ho) hn).2 m hbinding
    have hdynamic : scope.dynamic = true := by
      rcases Bool.or_eq_true_iff.mp hfixed with hkind | hdynamic
      · rw [Option.isNone_iff_eq_none, h.global n scope hscope] at hkind
        exact absurd hlt (by omega)
      · exact hdynamic
    have hinner : s.isDynamic n = true := by rw [isDynamic, hscope]; exact hdynamic
    have houter := (mem_takeWhile_find (h.dynamic o ho) hn).2 m hbinding hinner
    obtain ⟨scope', hscope', hdynamic'⟩ := (Option.any_eq_true ..).mp houter
    rw [called, hbinding]
    exact newName_fixed hscope' (Bool.or_eq_true_iff.mpr (.inr hdynamic')) _

/-- No name that is bound between an occurrence and its binding is called as the occurrence is. -/
theorem newName_ne_called {o : Occurrence} (ho : o ∈ s.occurrences) {n : Nat}
    (hn : n ∈ o.chain.takeWhile fun i => some i != s.binding o) {x : String} (hx : x ∈ s.bound n) :
    newName (s.tables reserved) (some n) x ≠ s.called reserved o := by
  obtain ⟨scope, hscope, -⟩ := mem_bound.mp hx
  cases hfixed : scope.isFixed with
  | true =>
    rw [newName_fixed hscope hfixed, h.called_fixed ho hscope hfixed hn]
    rintro rfl
    have hunbound := (mem_takeWhile_find (h.outward o ho) hn).1
    rw [← Bool.not_eq_true, List.contains_iff_mem] at hunbound
    exact hunbound hx
  | false =>
    intro heq
    have havoided : s.called reserved o ∈ s.avoided reserved n :=
      List.mem_map.mpr ⟨_, mem_outer ho hn, rfl⟩
    exact newName_ne_avoided h.outwardly hscope hfixed (h.nodup n scope hscope) hx (heq ▸ havoided)

/-- No two names that a scope binds are called the same. -/
theorem injective {n : Nat} {x y : String} (hx : x ∈ s.bound n) (hy : y ∈ s.bound n)
    (heq : newName (s.tables reserved) (some n) x = newName (s.tables reserved) (some n) y) :
    x = y := by
  obtain ⟨scope, hscope, -⟩ := mem_bound.mp hx
  exact newName_injective h.outwardly hscope (h.nodup n scope hscope) hx hy heq

/-- Where every scope binds the new names of what it bound, a new name is resolved as the old one
was. -/
theorem resolve_called {t : Scoping} (hbound : ∀ n,
      t.bound n = (s.bound n).map (newName (s.tables reserved) (some n)))
    {o : Occurrence} (ho : o ∈ s.occurrences) :
    t.resolve o.chain (s.called reserved o) = s.binding o := by
  refine find?_eq_of_takeWhile (fun n hn => ?_) fun n hn => ?_
  · rw [hbound, List.contains_iff_mem, called, show s.binding o = some n from hn]
    exact List.mem_map_of_mem (mem_bound_of_binding hn)
  · rw [← Bool.not_eq_true, List.contains_iff_mem, hbound, List.mem_map]
    rintro ⟨x, hx, heq⟩
    exact h.newName_ne_called ho hn hx heq

end Sound
end Scoping
end EcmaPress

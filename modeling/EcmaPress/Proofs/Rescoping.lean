import EcmaPress.Proofs.Scopes

/-!
# Walks over renamed trees

A walk over a tree with new names goes through the same scopes as the walk over the tree with the
old ones. Each scope binds the new names of what it bound, in the same order, if a name that is
bound gets the new name that its scope has for it, and if no scope has one new name for two names.
Where names were looked up by their spelling, they still are if a call of `eval` stays one.
-/

namespace EcmaPress

open BindingEvent

namespace Scoping

variable {name : Nat → String → String} {r : Relabeling} {s t : Scoping}

/-- The second walk is where the first one is, with new names: scope `n` binds the names
`name n`. -/
structure Follows (name : Nat → String → String) (r : Relabeling) (s t : Scoping) : Prop where
  chain : t.chain = s.chain
  size : t.scopes.size = s.scopes.size
  scopes : ∀ n (scope : Scope), s.scopes[n]? = some scope → ∃ scope', t.scopes[n]? = some scope' ∧
    scope'.kind = scope.kind ∧ scope'.bound = scope.bound.map (name n) ∧
    (scope.dynamic = true → scope'.dynamic = true)
  occurrences : t.occurrences = s.occurrences.map fun o => ⟨r.identifier o.id, o.chain⟩

namespace Follows

theorem start : Follows name r {} {} where
  chain := rfl
  size := rfl
  scopes n scope h := by
    refine ⟨scope, h, rfl, ?_, id⟩
    cases n with
    | zero =>
      obtain rfl : (⟨none, [], false⟩ : Scope) = scope := Option.some.inj h
      rfl
    | succ n => simp at h
  occurrences := by simp

variable (h : Follows name r s t)

include h

theorem absent {n : Nat} (hscope : s.scopes[n]? = none) : t.scopes[n]? = none := by
  rw [Array.getElem?_eq_none_iff] at hscope ⊢
  rwa [h.size]

theorem kinds (n : Nat) : t.scopes[n]?.map Scope.kind = s.scopes[n]?.map Scope.kind := by
  cases hscope : s.scopes[n]? with
  | none => rw [h.absent hscope]
  | some scope =>
    obtain ⟨scope', hscope', hkind, -, -⟩ := h.scopes n scope hscope
    rw [hscope', Option.map_some, Option.map_some, hkind]

theorem bound (n : Nat) : t.bound n = (s.bound n).map (name n) := by
  cases hscope : s.scopes[n]? with
  | none =>
    rw [Scoping.bound, Scoping.bound, h.absent hscope, hscope]
    rfl
  | some scope =>
    obtain ⟨scope', hscope', -, hbound, -⟩ := h.scopes n scope hscope
    rw [bound_eq hscope, bound_eq hscope', hbound]

theorem variableChain : t.variableChain = s.variableChain := by
  have hhandler : ∀ n : Nat,
      t.scopes[n]?.any Scope.isHandler = s.scopes[n]?.any Scope.isHandler := by
    intro n
    have hkinds := congrArg (Option.any (· == some .handler)) (h.kinds n)
    rw [Option.any_map, Option.any_map] at hkinds
    exact hkinds
  rw [Scoping.variableChain, Scoping.variableChain, h.chain]
  exact congrArg (s.chain.dropWhile ·) (funext hhandler)

theorem target (e : BindingEvent) : t.target (e.relabel r) = s.target e := by
  cases e with
  | bind => exact h.chain
  | hoist => exact h.variableChain
  | _ => rfl

/-- The name of an event is bound in both walks if it gets the new name of the scope that binds
it. -/
theorem named {e : BindingEvent} {id : Identifier} (he : e.id? = some id)
    (hname : ∀ n ∈ (s.target e).head?, r.name id = name n id.name)
    (hinj : ∀ n ∈ (s.target e).head?, ∀ x ∈ s.bound n, name n x = name n id.name → x = id.name) :
    Follows name r (s.step e) (t.step (e.relabel r)) := by
  have he' : (e.relabel r).id? = some (r.identifier id) := by cases e <;> cases he <;> rfl
  rw [step_named he, step_named he', h.target]
  refine ⟨by simpa [occur] using h.chain, by simpa [occur] using h.size, fun n scope hscope => ?_, ?_⟩
  · obtain ⟨old, hold, rfl⟩ := Option.map_eq_some_iff.mp ((getElem?_bindIn ..).symm.trans hscope)
    obtain ⟨new, hnew, hkind, hbound, hdynamic⟩ := h.scopes n old hold
    refine ⟨_, (getElem?_bindIn ..).trans (by rw [hnew]; rfl), ?_⟩
    split
    · next hhead =>
      have hsame : new.bound.contains (r.name id) = old.bound.contains id.name := by
        rw [hname n hhead, hbound, Bool.eq_iff_iff, List.contains_iff_mem, List.contains_iff_mem]
        refine ⟨fun hmem => ?_, List.mem_map_of_mem⟩
        obtain ⟨x, hx, heq⟩ := List.mem_map.mp hmem
        exact hinj n hhead x (mem_bound.mpr ⟨old, hold, hx⟩) heq ▸ hx
      refine ⟨by simpa using hkind, ?_, by simpa using hdynamic⟩
      have hsame' : (new.bind (r.name id)).bound =
          if old.bound.contains id.name then new.bound else new.bound ++ [r.name id] := by
        rw [Scope.bound_bind, hsame]
      refine hsame'.trans ?_
      rw [Scope.bound_bind]
      split
      · exact hbound
      · rw [hbound, List.map_append, hname n hhead]
        rfl
    · exact ⟨hkind, hbound, hdynamic⟩
  · simp [occur, h.occurrences, h.chain]

theorem enter (kind : ScopeKind) : Follows name r (s.step (.enter kind)) (t.step (.enter kind)) := by
  refine ⟨by simp [step, h.chain, h.size], by simp [step, h.size], fun n scope hscope => ?_,
    h.occurrences⟩
  rw [step, Array.getElem?_push] at hscope
  simp only [step, Array.getElem?_push, h.size]
  by_cases hn : n = s.scopes.size
  · rw [if_pos hn] at hscope
    obtain rfl := Option.some.inj hscope
    exact ⟨_, if_pos hn, rfl, rfl, id⟩
  · rw [if_neg hn] at hscope ⊢
    exact h.scopes n scope hscope

theorem leave : Follows name r (s.step .leave) (t.step .leave) :=
  ⟨congrArg List.tail h.chain, h.size, h.scopes, h.occurrences⟩

/-- The second walk may look names up where the first one does not. -/
theorem gained : Follows name r s (t.step .lookUp) := by
  rw [step_lookUp]
  refine ⟨h.chain, (size_exposed ..).trans h.size, fun n scope hscope => ?_, h.occurrences⟩
  obtain ⟨scope', hscope', hkind, hbound, hdynamic⟩ := h.scopes n scope hscope
  refine ⟨_, (getElem?_exposed ..).trans (by rw [hscope']; rfl), ?_⟩
  split
  · exact ⟨hkind, hbound, fun _ => rfl⟩
  · exact ⟨hkind, hbound, hdynamic⟩

theorem lookUp : Follows name r (s.step .lookUp) (t.step .lookUp) := by
  rw [step_lookUp, step_lookUp]
  refine ⟨h.chain, (size_exposed ..).trans (h.size.trans (size_exposed ..).symm),
    fun n scope hscope => ?_, h.occurrences⟩
  obtain ⟨old, hold, rfl⟩ := Option.map_eq_some_iff.mp ((getElem?_exposed ..).symm.trans hscope)
  obtain ⟨new, hnew, hkind, hbound, hdynamic⟩ := h.scopes n old hold
  refine ⟨_, (getElem?_exposed ..).trans (by rw [hnew]; rfl), ?_⟩
  rw [h.chain]
  split
  · exact ⟨hkind, hbound, fun _ => rfl⟩
  · exact ⟨hkind, hbound, hdynamic⟩

omit h in
/-- The walk over a tree with new names follows the walk over the tree, if the new names fit. -/
theorem run {es fs : List BindingEvent} (h : Reworded r es fs) (hfollows : Follows name r s t)
    (hname : ∀ before e after, es = before ++ e :: after → ∀ id ∈ e.id?,
      ∀ n ∈ ((before.foldl step s).target e).head?, n < (before.foldl step s).scopes.size ∧
        r.name id = name n id.name)
    (hinj : ∀ n, ∀ x ∈ (es.foldl step s).bound n, ∀ y ∈ (es.foldl step s).bound n,
      name n x = name n y → x = y)
    (heval : ∀ before id after, es = before ++ BindingEvent.lookUp :: use id :: after →
      id.name = "eval" → r.name id = "eval") :
    Follows name r (es.foldl step s) (fs.foldl step t) := by
  have hstep {e : BindingEvent} {es : List BindingEvent} {s t : Scoping}
      (hfollows : Follows name r s t)
      (hname : ∀ id ∈ e.id?, ∀ n ∈ (s.target e).head?,
        n < s.scopes.size ∧ r.name id = name n id.name)
      (hinj : ∀ n, ∀ x ∈ (es.foldl step (s.step e)).bound n,
        ∀ y ∈ (es.foldl step (s.step e)).bound n, name n x = name n y → x = y) :
      Follows name r (s.step e) (t.step (e.relabel r)) := by
    have hnamed {id : Identifier} (he : e.id? = some id) :
        Follows name r (s.step e) (t.step (e.relabel r)) := by
      refine hfollows.named he (fun n hn => (hname id he n hn).2) fun n hn x hx => ?_
      obtain ⟨rest, htarget⟩ := List.head?_eq_some_iff.mp hn
      have hgrows := Grows.run es (s.step e)
      refine hinj n x (hgrows.bound n x ((Grows.step s e).bound n x hx)) id.name
        (hgrows.bound n id.name (mem_bound_target he htarget (hname id he n hn).1))
    cases e with
    | enter kind => exact hfollows.enter kind
    | leave => exact hfollows.leave
    | lookUp => exact hfollows.lookUp
    | bind id | hoist id | use id => exact hnamed rfl
  induction h generalizing s t with
  | nil => exact hfollows
  | cons e hrest ih =>
    refine ih (hstep hfollows (hname [] e _ rfl) hinj) (fun before e' after heq => ?_) hinj
      fun before id after heq => heval (e :: before) id after (by rw [heq]; rfl)
    exact hname (e :: before) e' after (by rw [heq]; rfl)
  | @gained id es fs hold hnew hrest ih =>
    refine ih (hstep hfollows.gained (hname [] _ _ rfl) hinj) (fun before e' after heq => ?_) hinj
      fun before id' after heq => heval (use id :: before) id' after (by rw [heq]; rfl)
    exact hname (use id :: before) e' after (by rw [heq]; rfl)
  | @lost id es fs hold hnew =>
    exact absurd (heval [] id es rfl hold) hnew

end Follows
end Scoping
end EcmaPress

import EcmaPress.Binding.Renaming
import EcmaPress.Proofs.Events

/-!
# Walks over binding events

What holds of the scopes and occurrences of every walk. Each occurrence sees a chain of scopes that
lie in each other, and a scope comes after those around it. Where names may be looked up in a scope
by their spelling, they may be looked up in all scopes around it. And as a walk goes on, nothing
that is bound is given up.
-/

namespace EcmaPress

open BindingEvent

namespace Scope

theorem bound_bind (scope : Scope) (name : String) : (scope.bind name).bound =
    if scope.bound.contains name then scope.bound else scope.bound ++ [name] := by
  unfold bind
  split <;> rfl

theorem mem_bind {scope : Scope} {name other : String} :
    other ∈ (scope.bind name).bound ↔ other ∈ scope.bound ∨ other = name := by
  rw [bound_bind]
  split
  · next h =>
    rw [List.contains_iff_mem] at h
    constructor
    · exact .inl
    · rintro (hmem | rfl)
      · exact hmem
      · exact h
  · simp

theorem nodup_bind {scope : Scope} (h : scope.bound.Nodup) (name : String) :
    (scope.bind name).bound.Nodup := by
  rw [bound_bind]
  split
  · exact h
  · next hnew =>
    rw [List.contains_iff_mem] at hnew
    refine List.nodup_append.mpr ⟨h, by simp, fun a ha b hb => ?_⟩
    obtain rfl : b = name := by simpa using hb
    rintro rfl
    exact hnew ha

@[simp] theorem kind_bind (scope : Scope) (name : String) : (scope.bind name).kind = scope.kind := by
  unfold bind
  split <;> rfl

@[simp] theorem dynamic_bind (scope : Scope) (name : String) :
    (scope.bind name).dynamic = scope.dynamic := by
  unfold bind
  split <;> rfl

/-- The scope with look-ups by spelling. -/
def exposed (scope : Scope) : Scope :=
  { scope with dynamic := true }

end Scope

namespace Scoping

variable {s : Scoping} {e : BindingEvent} {id : Identifier}

/-! ### Steps -/

/-- The chain in whose first scope an event binds its name, if it binds one. -/
def target (s : Scoping) : BindingEvent → List Nat
  | .bind _ => s.chain
  | .hoist _ => s.variableChain
  | .enter _ | .leave | .use _ | .lookUp => []

/-- An event with a name binds it in its target, and the name occurs in the current scope. -/
theorem step_named (h : e.id? = some id) : s.step e = (s.bindIn (s.target e) id.name).occur id := by
  cases e <;> cases h <;> rfl

theorem step_lookUp : s.step .lookUp =
    { s with scopes := s.chain.foldl (fun scopes i => scopes.modify i Scope.exposed) s.scopes } :=
  rfl

theorem size_exposed (chain : List Nat) (scopes : Array Scope) :
    (chain.foldl (fun scopes i => scopes.modify i Scope.exposed) scopes).size = scopes.size := by
  induction chain generalizing scopes with
  | nil => rfl
  | cons i chain ih => rw [List.foldl_cons, ih, Array.size_modify]

theorem getElem?_exposed (chain : List Nat) (scopes : Array Scope) (j : Nat) :
    (chain.foldl (fun scopes i => scopes.modify i Scope.exposed) scopes)[j]? =
      scopes[j]?.map fun scope => if j ∈ chain then scope.exposed else scope := by
  induction chain generalizing scopes with
  | nil => simp
  | cons i chain ih =>
    rw [List.foldl_cons, ih, Array.getElem?_modify]
    by_cases hij : i = j
    · subst hij
      rw [if_pos rfl, Option.map_map]
      refine congrArg (scopes[i]?.map ·) (funext fun scope => ?_)
      simp only [Function.comp_apply, List.mem_cons, true_or, if_true]
      split <;> rfl
    · rw [if_neg hij]
      simp [Ne.symm hij]

theorem getElem?_bindIn (chain : List Nat) (name : String) (j : Nat) :
    (s.bindIn chain name).scopes[j]? =
      s.scopes[j]?.map fun scope => if chain.head? = some j then scope.bind name else scope := by
  cases chain with
  | nil => simp [bindIn]
  | cons i chain =>
    rw [bindIn, Array.getElem?_modify, List.head?_cons]
    by_cases hij : i = j
    · simp [hij]
    · simp [hij]

@[simp] theorem size_bindIn (chain : List Nat) (name : String) :
    (s.bindIn chain name).scopes.size = s.scopes.size := by
  cases chain with
  | nil => rfl
  | cons => exact Array.size_modify

@[simp] theorem chain_bindIn (chain : List Nat) (name : String) :
    (s.bindIn chain name).chain = s.chain := by
  cases chain <;> rfl

@[simp] theorem occurrences_bindIn (chain : List Nat) (name : String) :
    (s.bindIn chain name).occurrences = s.occurrences := by
  cases chain <;> rfl

/-- Whether names may be looked up in a scope by their spelling. -/
def isDynamic (s : Scoping) (scope : Nat) : Bool :=
  s.scopes[scope]?.any Scope.dynamic

@[simp] theorem isDynamic_bindIn (chain : List Nat) (name : String) (j : Nat) :
    (s.bindIn chain name).isDynamic j = s.isDynamic j := by
  rw [isDynamic, getElem?_bindIn, Option.any_map, isDynamic]
  refine congrArg (s.scopes[j]?.any ·) (funext fun scope => ?_)
  split <;> simp

theorem isDynamic_lookUp (j : Nat) :
    (s.step .lookUp).isDynamic j = true ↔ s.isDynamic j = true ∨ j ∈ s.chain ∧ j < s.scopes.size := by
  rw [step_lookUp, isDynamic, getElem?_exposed, Option.any_map, isDynamic]
  by_cases hsize : j < s.scopes.size
  · rw [Array.getElem?_eq_getElem hsize]
    by_cases hmem : j ∈ s.chain <;> simp [hmem, hsize, Scope.exposed]
  · rw [Array.getElem?_eq_none (Nat.le_of_not_lt hsize)]
    simp [hsize]

/-! ### Chains of scopes -/

/-- A chain of scopes with numbers below `size`: behind its first scope stand those around it. -/
def Linked (around : Nat → List Nat) (size : Nat) (chain : List Nat) : Prop :=
  ∀ scope rest, chain = scope :: rest → scope < size ∧ rest = around scope

/-- Every scope lies in those around it, which have been opened before it, and so do the scopes
that are open and those that an occurrence sees. Look-ups in a scope are look-ups around it. -/
structure Nested (s : Scoping) (around : Nat → List Nat) : Prop where
  outward : ∀ scope < s.scopes.size, Linked around scope (around scope)
  chain : Linked around s.scopes.size s.chain
  occurrences : ∀ o ∈ s.occurrences, Linked around s.scopes.size o.chain
  dynamic : ∀ scope < s.scopes.size, ∀ outer ∈ around scope, s.isDynamic scope = true →
    s.isDynamic outer = true

section

variable {around around' : Nat → List Nat} {size size' : Nat} {chain : List Nat}

theorem Linked.mono (h : Linked around size chain) (hsize : size ≤ size')
    (hsame : ∀ scope < size, around' scope = around scope) : Linked around' size' chain := by
  rintro scope rest rfl
  obtain ⟨hlt, rfl⟩ := h scope rest rfl
  exact ⟨Nat.lt_of_lt_of_le hlt hsize, (hsame scope hlt).symm⟩

variable (hout : ∀ scope < size, Linked around scope (around scope))

include hout

/-- What holds between each scope and those around it holds along a chain. -/
theorem Linked.pairwise (h : Linked around size chain) {P : Nat → Nat → Prop}
    (hP : ∀ scope < size, ∀ outer ∈ around scope, P scope outer) : chain.Pairwise P := by
  induction chain generalizing size with
  | nil => exact .nil
  | cons scope rest ih =>
    obtain ⟨hlt, rfl⟩ := h scope rest rfl
    refine .cons (hP scope hlt) (ih (fun k hk => hout k (Nat.lt_trans hk hlt)) (hout scope hlt)
      fun k hk => hP k (Nat.lt_trans hk hlt))

theorem Linked.lt (h : Linked around size chain) {scope : Nat} (hmem : scope ∈ chain) :
    scope < size := by
  induction chain generalizing size with
  | nil => cases hmem
  | cons first rest ih =>
    obtain ⟨hlt, rfl⟩ := h first rest rfl
    rcases List.mem_cons.mp hmem with rfl | hmem
    · exact hlt
    · exact Nat.lt_trans (ih (fun k hk => hout k (Nat.lt_trans hk hlt)) (hout first hlt) hmem) hlt

theorem Linked.around_subset (h : Linked around size chain) {scope : Nat} (hmem : scope ∈ chain) :
    around scope ⊆ chain := by
  induction chain generalizing size with
  | nil => cases hmem
  | cons first rest ih =>
    obtain ⟨hlt, rfl⟩ := h first rest rfl
    rcases List.mem_cons.mp hmem with rfl | hmem
    · exact List.subset_cons_self ..
    · exact List.Subset.trans (ih (fun k hk => hout k (Nat.lt_trans hk hlt)) (hout first hlt) hmem)
        (List.subset_cons_self ..)

end

namespace Nested

variable {around : Nat → List Nat}

theorem start : ({} : Scoping).Nested fun _ => [] where
  outward _ _ _ _ h := nomatch h
  chain := by
    rintro scope rest ⟨⟩
    exact ⟨Nat.zero_lt_one, rfl⟩
  occurrences o ho := by simp at ho
  dynamic _ _ _ h := nomatch h

theorem named (h : s.Nested around) (he : e.id? = some id) : (s.step e).Nested around := by
  rw [step_named he]
  refine ⟨?_, ?_, fun o ho => ?_, ?_⟩
  · simpa [occur] using h.outward
  · simpa [occur] using h.chain
  · rcases Array.mem_push.mp ho with ho | rfl
    · simpa [occur] using h.occurrences o (by simpa using ho)
    · simpa [occur] using h.chain
  · intro scope hscope outer houter hdynamic
    have hdynamic : (s.bindIn (s.target e) id.name).isDynamic scope = true := hdynamic
    rw [isDynamic_bindIn] at hdynamic
    have hsize : scope < s.scopes.size := by simpa [occur] using hscope
    exact (isDynamic_bindIn ..).trans (h.dynamic scope hsize outer houter hdynamic)

theorem enter (h : s.Nested around) (kind : ScopeKind) : (s.step (.enter kind)).Nested
    fun scope => if scope = s.scopes.size then s.chain else around scope := by
  have hsame : ∀ scope < s.scopes.size,
      (if scope = s.scopes.size then s.chain else around scope) = around scope :=
    fun scope hscope => if_neg (Nat.ne_of_lt hscope)
  have hsize : (s.step (.enter kind)).scopes.size = s.scopes.size + 1 := Array.size_push ..
  refine ⟨fun scope hscope => ?_, ?_, fun o ho => ?_, fun scope hscope outer houter hdynamic => ?_⟩
  · rcases Nat.lt_succ_iff_lt_or_eq.mp (hsize ▸ hscope) with hlt | rfl
    · rw [hsame scope hlt]
      exact (h.outward scope hlt).mono (Nat.le_refl _) fun k hk => hsame k (Nat.lt_trans hk hlt)
    · rw [if_pos rfl]
      exact h.chain.mono (Nat.le_refl _) hsame
  · rintro scope rest heq
    obtain ⟨rfl, rfl⟩ := List.cons.inj heq
    exact ⟨hsize ▸ Nat.lt_succ_self _, (if_pos rfl).symm⟩
  · exact (h.occurrences o ho).mono (hsize ▸ Nat.le_succ _) hsame
  · rcases Nat.lt_succ_iff_lt_or_eq.mp (hsize ▸ hscope) with hlt | rfl
    · rw [hsame scope hlt] at houter
      have houter' := Linked.lt (fun k hk => h.outward k (Nat.lt_trans hk hlt))
        (h.outward scope hlt) houter
      have hold : ∀ j < s.scopes.size, (s.step (.enter kind)).isDynamic j = s.isDynamic j := by
        intro j hj
        rw [isDynamic, isDynamic, step, Array.getElem?_push, if_neg (Nat.ne_of_lt hj)]
      rw [hold _ (Nat.lt_trans houter' hlt)]
      exact h.dynamic scope hlt outer houter (hold _ hlt ▸ hdynamic)
    · have hnew : (s.step (.enter kind)).isDynamic s.scopes.size = false := by
        simp [isDynamic, step]
      rw [hnew] at hdynamic
      cases hdynamic

theorem leave (h : s.Nested around) : (s.step .leave).Nested around := by
  refine ⟨h.outward, ?_, h.occurrences, h.dynamic⟩
  intro scope rest heq
  cases hchain : s.chain with
  | nil => simp [step, hchain] at heq
  | cons first rest' =>
    obtain ⟨hlt, rfl⟩ := h.chain first rest' hchain
    obtain ⟨hlt', hrest⟩ := h.outward first hlt scope rest (by simpa [step, hchain] using heq)
    exact ⟨Nat.lt_trans hlt' hlt, hrest⟩

theorem lookUp (h : s.Nested around) : (s.step .lookUp).Nested around := by
  have hsize : (s.step .lookUp).scopes.size = s.scopes.size := size_exposed ..
  refine ⟨by rw [hsize]; exact h.outward, by rw [hsize]; exact h.chain,
    by rw [hsize]; exact h.occurrences, fun scope hscope outer houter hdynamic => ?_⟩
  rw [hsize] at hscope
  rw [isDynamic_lookUp] at hdynamic ⊢
  rcases hdynamic with hdynamic | ⟨hmem, -⟩
  · exact .inl (h.dynamic scope hscope outer houter hdynamic)
  · have hmem' := Linked.around_subset h.outward h.chain hmem houter
    exact .inr ⟨hmem', Linked.lt h.outward h.chain hmem'⟩

/-- Every walk keeps scopes nested. -/
theorem ofEvents (events : List BindingEvent) : ∃ around, (ofEvents events).Nested around := by
  have hrun : ∀ (events : List BindingEvent) (s : Scoping) (around : Nat → List Nat),
      s.Nested around → ∃ around, (events.foldl step s).Nested around := by
    intro events
    induction events with
    | nil => exact fun s around h => ⟨around, h⟩
    | cons e events ih =>
      intro s around h
      cases e with
      | enter kind => exact ih _ _ (h.enter kind)
      | leave => exact ih _ _ h.leave
      | lookUp => exact ih _ _ h.lookUp
      | bind id | hoist id | use id => exact ih _ _ (h.named rfl)
  exact hrun events {} _ start

end Nested

/-! ### Single scopes -/

/-- What holds of new scopes, and is kept where a name is bound and where names are looked up, holds
of all scopes. -/
theorem forall_scopes {P : Nat → Scope → Prop} (hglobal : P 0 ⟨none, [], false⟩)
    (hnew : ∀ n kind, P (n + 1) ⟨some kind, [], false⟩)
    (hbind : ∀ n scope name, P n scope → P n (scope.bind name))
    (hexposed : ∀ n scope, P n scope → P n scope.exposed) (events : List BindingEvent) :
    ∀ n scope, (ofEvents events).scopes[n]? = some scope → P n scope := by
  have hstep : ∀ (s : Scoping) e, 0 < s.scopes.size ∧ (∀ n scope, s.scopes[n]? = some scope → P n scope) →
      0 < (s.step e).scopes.size ∧ ∀ n scope, (s.step e).scopes[n]? = some scope → P n scope := by
    rintro s e ⟨hsize, h⟩
    have hnamed {id : Identifier} (he : e.id? = some id) : 0 < (s.step e).scopes.size ∧
        ∀ n scope, (s.step e).scopes[n]? = some scope → P n scope := by
      rw [step_named he]
      refine ⟨by simpa [occur] using hsize, fun n scope hscope => ?_⟩
      obtain ⟨old, hold, rfl⟩ := Option.map_eq_some_iff.mp ((getElem?_bindIn ..).symm.trans hscope)
      split
      · exact hbind n old _ (h n old hold)
      · exact h n old hold
    cases e with
    | enter kind =>
      refine ⟨by simp [step], fun n scope hscope => ?_⟩
      rw [step, Array.getElem?_push] at hscope
      split at hscope
      · next hn =>
        obtain rfl := Option.some.inj hscope
        obtain ⟨m, hm⟩ := Nat.exists_eq_succ_of_ne_zero (Nat.ne_of_gt hsize)
        rw [hn, hm]
        exact hnew m kind
      · exact h n scope hscope
    | leave => exact ⟨hsize, h⟩
    | bind id | hoist id | use id => exact hnamed rfl
    | lookUp =>
      rw [step_lookUp]
      refine ⟨by simpa [size_exposed] using hsize, fun n scope hscope => ?_⟩
      rw [getElem?_exposed] at hscope
      obtain ⟨old, hold, rfl⟩ := Option.map_eq_some_iff.mp hscope
      split
      · exact hexposed n old (h n old hold)
      · exact h n old hold
  have hrun : ∀ (events : List BindingEvent) (s : Scoping),
      0 < s.scopes.size ∧ (∀ n scope, s.scopes[n]? = some scope → P n scope) →
      ∀ n scope, (events.foldl step s).scopes[n]? = some scope → P n scope := by
    intro events
    induction events with
    | nil => exact fun s h => h.2
    | cons e events ih => exact fun s h => ih _ (hstep s e h)
  refine hrun events {} ⟨Nat.zero_lt_one, fun n scope hscope => ?_⟩
  cases n with
  | zero =>
    obtain rfl : (⟨none, [], false⟩ : Scope) = scope := Option.some.inj hscope
    exact hglobal
  | succ n => simp at hscope

/-- Only the global scope lacks a kind. -/
theorem kind_eq_none {events : List BindingEvent} {n : Nat} {scope : Scope}
    (h : (ofEvents events).scopes[n]? = some scope) : scope.kind = none ↔ n = 0 :=
  forall_scopes (P := fun n scope => scope.kind = none ↔ n = 0) (by simp) (by simp) (by simp)
    (fun _ _ h => h) events n scope h

/-- No scope binds a name twice. -/
theorem nodup_bound {events : List BindingEvent} {n : Nat} {scope : Scope}
    (h : (ofEvents events).scopes[n]? = some scope) : scope.bound.Nodup :=
  forall_scopes (P := fun _ scope => scope.bound.Nodup) .nil (fun _ _ => .nil)
    (fun _ _ name h => Scope.nodup_bind h name) (fun _ _ h => h) events n scope h

/-! ### Growth -/

/-- A later state of a walk binds whatever an earlier one does, and holds its occurrences. Where
names are looked up by their spelling, they still are. -/
structure Grows (s t : Scoping) : Prop where
  size : s.scopes.size ≤ t.scopes.size
  dynamic : ∀ scope, s.isDynamic scope = true → t.isDynamic scope = true
  bound : ∀ scope name, name ∈ s.bound scope → name ∈ t.bound scope
  occurrences : ∀ o ∈ s.occurrences, o ∈ t.occurrences

theorem bound_eq {n : Nat} {scope : Scope} (h : s.scopes[n]? = some scope) :
    s.bound n = scope.bound := by
  rw [bound, h]

theorem mem_bound {n : Nat} {name : String} :
    name ∈ s.bound n ↔ ∃ scope, s.scopes[n]? = some scope ∧ name ∈ scope.bound := by
  unfold bound
  cases s.scopes[n]? <;> simp

theorem Grows.step (s : Scoping) (e : BindingEvent) : s.Grows (s.step e) := by
  have hnamed {id : Identifier} (he : e.id? = some id) : s.Grows (s.step e) := by
    rw [step_named he]
    refine ⟨by simp [occur], fun n => ?_, fun n name hname => ?_, fun o ho => ?_⟩
    · exact (isDynamic_bindIn (s.target e) id.name n).trans
    · obtain ⟨scope, hscope, hmem⟩ := mem_bound.mp hname
      refine mem_bound.mpr ⟨_, (getElem?_bindIn ..).trans (by rw [hscope]; rfl), ?_⟩
      split
      · exact Scope.mem_bind.mpr (.inl hmem)
      · exact hmem
    · exact Array.mem_push.mpr (.inl (by simpa using ho))
  cases e with
  | enter kind =>
    have hkept : ∀ (n : Nat) scope, s.scopes[n]? = some scope →
        (s.step (.enter kind)).scopes[n]? = some scope := fun n scope hscope => by
      have hn : n < s.scopes.size := (Array.getElem?_eq_some_iff.mp hscope).1
      rw [Scoping.step, Array.getElem?_push, if_neg (Nat.ne_of_lt hn), hscope]
    refine ⟨by simp [Scoping.step], fun n hdynamic => ?_, fun n name hname => ?_, fun o ho => ho⟩
    · obtain ⟨scope, hscope, h⟩ := (Option.any_eq_true ..).mp hdynamic
      exact (Option.any_eq_true ..).mpr ⟨scope, hkept n scope hscope, h⟩
    · obtain ⟨scope, hscope, hmem⟩ := mem_bound.mp hname
      exact mem_bound.mpr ⟨scope, hkept n scope hscope, hmem⟩
  | leave => exact ⟨Nat.le_refl _, fun _ h => h, fun _ _ h => h, fun _ h => h⟩
  | bind id | hoist id | use id => exact hnamed rfl
  | lookUp =>
    refine ⟨Nat.le_of_eq (size_exposed ..).symm, fun n h => (isDynamic_lookUp n).mpr (.inl h),
      fun n name hname => ?_, fun o ho => ho⟩
    obtain ⟨scope, hscope, hmem⟩ := mem_bound.mp hname
    refine mem_bound.mpr ⟨_, (getElem?_exposed ..).trans (by rw [hscope]; rfl), ?_⟩
    split <;> exact hmem

theorem Grows.run (events : List BindingEvent) (s : Scoping) : s.Grows (events.foldl Scoping.step s) := by
  induction events generalizing s with
  | nil => exact ⟨Nat.le_refl _, fun _ h => h, fun _ _ h => h, fun _ h => h⟩
  | cons e events ih =>
    have hfirst := Grows.step s e
    have hrest := ih (s.step e)
    exact ⟨Nat.le_trans hfirst.size hrest.size, fun n h => hrest.dynamic n (hfirst.dynamic n h),
      fun n name h => hrest.bound n name (hfirst.bound n name h),
      fun o ho => hrest.occurrences o (hfirst.occurrences o ho)⟩

/-- The name of an event is bound in its target. -/
theorem mem_bound_target (he : e.id? = some id) {n : Nat} {rest : List Nat}
    (htarget : s.target e = n :: rest) (hn : n < s.scopes.size) : id.name ∈ (s.step e).bound n := by
  rw [step_named he]
  refine mem_bound.mpr ⟨_, (getElem?_bindIn ..).trans
    (by rw [Array.getElem?_eq_getElem hn]; rfl), ?_⟩
  simp only [htarget, List.head?_cons, if_true]
  exact Scope.mem_bind.mpr (.inr rfl)

/-- The name of an event occurs in the current scope. -/
theorem mem_occurrences (he : e.id? = some id) : ⟨id, s.chain⟩ ∈ (s.step e).occurrences := by
  rw [step_named he, occur, chain_bindIn]
  exact Array.mem_push_self

end Scoping
end EcmaPress

import EcmaPress.Proofs.LocalNames
import EcmaPress.Text.Escape
import EcmaPress.Tree.Node

/-!
# Scopes in which names are looked up

The scopes of a program are those that its functions and handlers open, in their order. Names are
looked up by their spelling in a scope if this happens anywhere inside it, so the names of such a
scope are kept wherever they occur. A call of `eval` is known by its plain name only: in parentheses
or with escapes it is a direct call as well, and is not seen.
-/

namespace EcmaPress

open BindingEvent

/-! ### Outlines of walks -/

/-- What is known of the scopes of a walk but for their names: the kind of each one, and whether
names may be looked up in it by their spelling. The chain holds the open scopes. -/
structure Outline where
  scopes : List (Option ScopeKind × Bool)
  chain : List Nat

namespace Outline

/-- Scopes in which names may be looked up if they are looked up from the end of a chain. -/
def exposed (chain : List Nat) (looked : Bool) (scopes : List (Option ScopeKind × Bool)) :
    List (Option ScopeKind × Bool) :=
  scopes.mapIdx fun i scope => (scope.1, scope.2 || (looked && chain.contains i))

/-- An outline after one more event. -/
def step (o : Outline) : BindingEvent → Outline
  | .enter kind => ⟨o.scopes ++ [(some kind, false)], o.scopes.length :: o.chain⟩
  | .leave => ⟨o.scopes, o.chain.tail⟩
  | .lookUp => ⟨exposed o.chain true o.scopes, o.chain⟩
  | .bind _ | .hoist _ | .use _ => o

section

variable {chain : List Nat} {looked : Bool} {scopes inner : List (Option ScopeKind × Bool)}

theorem getElem?_exposed (i : Nat) : (exposed chain looked scopes)[i]? =
    scopes[i]?.map fun scope => (scope.1, scope.2 || (looked && chain.contains i)) :=
  List.getElem?_mapIdx

@[simp] theorem length_exposed : (exposed chain looked scopes).length = scopes.length :=
  List.length_mapIdx

@[simp] theorem exposed_false : exposed chain false scopes = scopes := by
  refine List.ext_getElem? fun i => ?_
  simp [getElem?_exposed]

theorem exposed_exposed (looked' : Bool) :
    exposed chain looked' (exposed chain looked scopes) =
      exposed chain (looked || looked') scopes := by
  refine List.ext_getElem? fun i => ?_
  simp [getElem?_exposed, Function.comp_def, Bool.and_or_distrib_right, Bool.or_assoc]

/-- Scopes that are not open are not exposed. -/
theorem exposed_append (hchain : ∀ i ∈ chain, i < scopes.length) :
    exposed chain looked (scopes ++ inner) = exposed chain looked scopes ++ inner := by
  refine List.ext_getElem? fun i => ?_
  by_cases hi : i < scopes.length
  · rw [getElem?_exposed, List.getElem?_append_left hi,
      List.getElem?_append_left (by simpa using hi), getElem?_exposed]
  · have hout : i ∉ chain := fun hmem => hi (hchain i hmem)
    rw [getElem?_exposed, List.getElem?_append_right (Nat.le_of_not_lt hi),
      List.getElem?_append_right (by simpa using hi), length_exposed]
    simp [hout]

/-- What is exposed in a new scope and around it. -/
theorem exposed_enter (kind : ScopeKind) :
    exposed (scopes.length :: chain) looked (scopes ++ [(some kind, false)]) =
      exposed chain looked scopes ++ [(some kind, looked)] := by
  refine List.ext_getElem? fun i => ?_
  rcases Nat.lt_trichotomy i scopes.length with hi | rfl | hi
  · rw [getElem?_exposed, List.getElem?_append_left hi,
      List.getElem?_append_left (by simpa using hi), getElem?_exposed]
    simp [Nat.ne_of_lt hi]
  · rw [getElem?_exposed, List.getElem?_append_right (Nat.le_refl _),
      List.getElem?_append_right (by simp), length_exposed]
    simp
  · rw [List.getElem?_eq_none (by simp; omega), List.getElem?_eq_none (by simp; omega)]

end

end Outline

namespace Scoping

/-- The outline of a walk. -/
def outline (s : Scoping) : Outline :=
  ⟨s.scopes.toList.map fun scope => (scope.kind, scope.dynamic), s.chain⟩

theorem outline_step (s : Scoping) (e : BindingEvent) : (s.step e).outline = s.outline.step e := by
  have hnamed {id : Identifier} (he : e.id? = some id) : (s.step e).outline = s.outline := by
    rw [step_named he, outline, outline]
    refine congrArg₂ Outline.mk (List.ext_getElem? fun j => ?_) (chain_bindIn ..)
    simp only [occur, List.getElem?_map, Array.getElem?_toList, getElem?_bindIn, Option.map_map]
    refine congrArg (s.scopes[j]?.map ·) (funext fun scope => ?_)
    simp only [Function.comp_apply]
    split <;> simp
  cases e with
  | enter kind => simp [step, outline, Outline.step]
  | leave => rfl
  | lookUp =>
    rw [step_lookUp, outline, Outline.step, outline]
    refine congrArg₂ Outline.mk (List.ext_getElem? fun j => ?_) rfl
    simp only [Outline.exposed, List.getElem?_mapIdx, List.getElem?_map, Array.getElem?_toList,
      getElem?_exposed, Option.map_map]
    refine congrArg (s.scopes[j]?.map ·) (funext fun scope => ?_)
    by_cases hmem : j ∈ s.chain <;> simp [hmem, Scope.exposed]
  | bind id | hoist id | use id => exact hnamed rfl

theorem outline_foldl (events : List BindingEvent) (s : Scoping) :
    (events.foldl step s).outline = events.foldl Outline.step s.outline := by
  induction events generalizing s with
  | nil => rfl
  | cons e events ih => rw [List.foldl_cons, ih, outline_step, List.foldl_cons]

end Scoping

/-! ### Walks and what they expose -/

/-- Wherever a walk begins, it ends with the scopes that were open there. It has exposed them if
names are looked up in it, and it has opened the `inner` ones. -/
def Walks (events : List BindingEvent) (looked : Bool) (inner : List (Option ScopeKind × Bool)) :
    Prop :=
  ∀ o : Outline, (∀ i ∈ o.chain, i < o.scopes.length) →
    events.foldl Outline.step o = ⟨Outline.exposed o.chain looked o.scopes ++ inner, o.chain⟩

namespace Walks

variable {es fs : List BindingEvent} {looked looked' : Bool}
  {inner inner' : List (Option ScopeKind × Bool)}

theorem nil : Walks [] false [] := by
  intro o _
  simp

theorem lookUp : Walks [lookUp] true [] := by
  intro o _
  simp [Outline.step]

theorem append (h : Walks es looked inner) (h' : Walks fs looked' inner') :
    Walks (es ++ fs) (looked || looked') (inner ++ inner') := by
  intro o ho
  have hopen : ∀ i ∈ o.chain, i < (Outline.exposed o.chain looked o.scopes ++ inner).length := by
    intro i hi
    rw [List.length_append, Outline.length_exposed]
    exact Nat.lt_add_right _ (ho i hi)
  rw [List.foldl_append, h o ho, h' _ hopen, Outline.exposed_append (by simpa using ho),
    Outline.exposed_exposed, List.append_assoc]

theorem scope (h : Walks es looked inner) (kind : ScopeKind) :
    Walks (BindingEvent.scope kind es) looked ((some kind, looked) :: inner) := by
  intro o ho
  have hopen : ∀ i ∈ o.scopes.length :: o.chain, i < (o.scopes ++ [(some kind, false)]).length := by
    intro i hi
    rw [List.length_append, List.length_singleton]
    rcases List.mem_cons.mp hi with rfl | hi
    · exact Nat.lt_succ_self _
    · exact Nat.lt_succ_of_lt (ho i hi)
  rw [BindingEvent.scope, List.cons_append, List.foldl_cons, List.foldl_append, Outline.step,
    h ⟨_, _⟩ hopen, Outline.exposed_enter, List.append_assoc]
  rfl

end Walks

/-! ### Events without names -/

namespace BindingEvent

/-- The events that open and close scopes and those that look names up. -/
def frame (events : List BindingEvent) : List BindingEvent :=
  events.filter fun e => e.id?.isNone

section

variable (id : Identifier) (kind : ScopeKind) (es fs : List BindingEvent)

@[simp] theorem frame_nil : frame [] = [] := rfl

@[simp] theorem frame_append : frame (es ++ fs) = frame es ++ frame fs :=
  List.filter_append ..

@[simp] theorem frame_bind : frame (bind id :: es) = frame es := rfl

@[simp] theorem frame_hoist : frame (hoist id :: es) = frame es := rfl

@[simp] theorem frame_use : frame (use id :: es) = frame es := rfl

@[simp] theorem frame_lookUp : frame (lookUp :: es) = lookUp :: frame es := rfl

@[simp] theorem frame_scope : frame (scope kind es) = scope kind (frame es) := by
  simp [frame, scope, id?]

end

@[simp] theorem frame_binds (xs : List Identifier) : frame (xs.map bind) = [] := by
  induction xs with
  | nil => rfl
  | cons x rest ih => rw [List.map_cons, frame_bind, ih]

/-- Names make no difference to an outline. -/
theorem foldl_frame (events : List BindingEvent) (o : Outline) :
    (frame events).foldl Outline.step o = events.foldl Outline.step o := by
  rw [frame, List.foldl_filter]
  refine congrFun (congrFun (congrArg _ (funext fun o => funext fun e => ?_)) o) events
  cases e <;> rfl

end BindingEvent

/-! ### Nodes -/

namespace TreeNode

/-- What a node opens, if it opens a scope. -/
def scopeKind? : TreeNode → Option ScopeKind
  | .function _ => some .function
  | .handler _ => some .handler
  | .expression _ | .statement _ => none

/-- Whether a node looks names up by their spelling: a `with` statement, or a call of `eval`. -/
def looksUp : TreeNode → Bool
  | .statement (.withObject ..) => true
  | .expression (.call callee _) => callee.isEval
  | _ => false

/-- The events of a node without names. -/
def frame : TreeNode → List BindingEvent
  | .expression x => BindingEvent.frame x.events
  | .statement s => BindingEvent.frame s.events
  | .function f => BindingEvent.frame f.events
  | .handler h => BindingEvent.frame h.events

end TreeNode

attribute [local simp]
  Expression.events Function.events SwitchClause.events CatchClause.events Statement.events
  Function.declarationEvents expressionsEvents elementsEvents propertiesEvents declaratorsEvents
  clausesEvents statementsEvents TreeNode.frame TreeNode.children Expression.children
  Statement.children

namespace BindingEvent

theorem frame_expressions (xs : List Expression) :
    frame (expressionsEvents xs) = (xs.map TreeNode.expression).flatMap TreeNode.frame := by
  induction xs with
  | nil => rfl
  | cons x rest ih => simp [ih]

theorem frame_elements (xs : List Element) :
    frame (elementsEvents xs) = (xs.flatMap Element.children).flatMap TreeNode.frame := by
  induction xs with
  | nil => rfl
  | cons x rest ih => cases x <;> simp [ih, Element.events, Element.children]

theorem frame_properties (xs : List Property) :
    frame (propertiesEvents xs) = (xs.flatMap Property.children).flatMap TreeNode.frame := by
  induction xs with
  | nil => rfl
  | cons p rest ih => cases p <;> simp [ih, Property.events, Property.children]

theorem frame_declarators (xs : List Declarator) :
    frame (declaratorsEvents xs) = (xs.flatMap Declarator.children).flatMap TreeNode.frame := by
  induction xs with
  | nil => rfl
  | cons d rest ih => cases d <;> simp [ih, Declarator.events, Declarator.children]

theorem frame_statements (xs : List Statement) :
    frame (statementsEvents xs) = (xs.map TreeNode.statement).flatMap TreeNode.frame := by
  induction xs with
  | nil => rfl
  | cons s rest ih => simp [ih]

theorem frame_clauses (xs : List SwitchClause) :
    frame (clausesEvents xs) = (xs.flatMap SwitchClause.children).flatMap TreeNode.frame := by
  induction xs with
  | nil => rfl
  | cons clause rest ih =>
    obtain ⟨test, body⟩ := clause
    cases test <;> simp [ih, frame_statements, SwitchClause.children]

theorem frame_forInit (init : ForInit) :
    frame init.events = init.children.flatMap TreeNode.frame := by
  cases init with
  | declarations _ declarators =>
    simpa [ForInit.events, ForInit.children] using frame_declarators declarators
  | expression x => simp [ForInit.events, ForInit.children]

end BindingEvent

namespace TreeNode

attribute [local simp] frame_expressions frame_elements frame_properties frame_declarators
  frame_statements frame_clauses frame_forInit

/-- In the scope that a node opens are the events of its children. -/
theorem frame_scope {n : TreeNode} {kind : ScopeKind} (h : n.scopeKind? = some kind) :
    n.frame = scope kind (n.children.flatMap frame) := by
  cases n with
  | function f =>
    obtain rfl := Option.some.inj h
    obtain ⟨_, id, _, _⟩ := f
    cases id <;> simp
  | handler clause =>
    obtain rfl := Option.some.inj h
    obtain ⟨_, _⟩ := clause
    simp
  | expression | statement => cases h

/-- The events of other nodes are those of their children, with their own look-up in front of some
of these. -/
theorem frame_plain {n : TreeNode} (h : n.scopeKind? = none) : ∃ before after,
    n.children = before ++ after ∧
    n.frame = before.flatMap frame ++
      ((if n.looksUp then [lookUp] else []) ++ after.flatMap frame) := by
  cases n with
  | expression x =>
    refine ⟨[], x.children, rfl, ?_⟩
    cases x with
    | call callee => cases heval : callee.isEval <;> simp [looksUp, heval]
    | _ => simp [looksUp]
  | statement s =>
    cases s with
    | withObject _ object body =>
      exact ⟨[.expression object], [.statement body], rfl, by simp [looksUp]⟩
    | ifElse _ _ _ alternate =>
      refine ⟨[], _, (List.nil_append _).symm, ?_⟩
      cases alternate <;> simp [looksUp]
    | forLoop _ init test update _ =>
      refine ⟨[], _, (List.nil_append _).symm, ?_⟩
      cases init <;> cases test <;> cases update <;> simp [looksUp]
    | returnValue _ argument =>
      refine ⟨[], _, (List.nil_append _).symm, ?_⟩
      cases argument <;> simp [looksUp]
    | tryCatch _ _ handler finalizer =>
      refine ⟨[], _, (List.nil_append _).symm, ?_⟩
      cases handler <;> cases finalizer <;> simp [looksUp]
    | function f =>
      refine ⟨[], _, (List.nil_append _).symm, ?_⟩
      obtain ⟨_, id, _, _⟩ := f
      cases id <;> simp [looksUp]
    | _ =>
      refine ⟨[], _, (List.nil_append _).symm, ?_⟩
      simp [looksUp]
  | function | handler => cases h

/-- The scopes that nodes open, each with whether names are looked up inside it. -/
def scopesOf (ns : List TreeNode) : List (Option ScopeKind × Bool) :=
  (ns.filter fun n => n.scopeKind?.isSome).map fun n => (n.scopeKind?, n.inside.any looksUp)

/-- A walk over nodes exposes the scopes around it if names are looked up in one of them. -/
theorem walks_flatMap {ns : List TreeNode}
    (h : ∀ n ∈ ns, Walks n.frame (n.nodes.any looksUp) (scopesOf n.nodes)) :
    Walks (ns.flatMap frame) ((ns.flatMap nodes).any looksUp) (scopesOf (ns.flatMap nodes)) := by
  induction ns with
  | nil => exact .nil
  | cons n ns ih =>
    obtain ⟨hfirst, hrest⟩ := List.forall_mem_cons.mp h
    rw [List.flatMap_cons, List.flatMap_cons, List.any_append, scopesOf, List.filter_append,
      List.map_append]
    exact hfirst.append (ih hrest)

/-- So does the walk over a node, and each scope inside is exposed if names are looked up in it. -/
theorem walks (n : TreeNode) : Walks n.frame (n.nodes.any looksUp) (scopesOf n.nodes) := by
  induction n using TreeNode.induction with
  | h n ih =>
    cases hkind : n.scopeKind? with
    | some kind =>
      have hinside := (walks_flatMap ih).scope kind
      rw [← inside_eq, ← frame_scope hkind] at hinside
      have hlook : n.looksUp = false := by
        cases n <;> first | rfl | cases hkind
      simpa [nodes, hlook, scopesOf, hkind] using hinside
    | none =>
      obtain ⟨before, after, hchildren, hframe⟩ := frame_plain hkind
      rw [hchildren] at ih
      obtain ⟨hbefore, hafter⟩ := List.forall_mem_append.mp ih
      have hown : Walks (if n.looksUp then [BindingEvent.lookUp] else []) n.looksUp [] := by
        cases n.looksUp with
        | true => exact .lookUp
        | false => exact .nil
      have hall := (walks_flatMap hbefore).append (hown.append (walks_flatMap hafter))
      rw [← hframe] at hall
      have hinside : n.inside = before.flatMap nodes ++ after.flatMap nodes := by
        rw [inside_eq, hchildren, List.flatMap_append]
      have hlooked : n.nodes.any looksUp = ((before.flatMap nodes).any looksUp ||
          (n.looksUp || (after.flatMap nodes).any looksUp)) := by
        rw [nodes, hinside, List.any_cons, List.any_append, Bool.or_left_comm]
      have hscopes : scopesOf n.nodes =
          scopesOf (before.flatMap nodes) ++ ([] ++ scopesOf (after.flatMap nodes)) := by
        simp [scopesOf, nodes, hinside, hkind]
      rw [hlooked, hscopes]
      exact hall

end TreeNode

namespace Program

/-- The nodes of a program that open scopes, in the order of these. -/
def scopeNodes (program : Program) : List TreeNode :=
  program.nodes.filter fun n => n.scopeKind?.isSome

/-- A program has the global scope and those that its nodes open. Names are looked up in a scope if
they are looked up somewhere inside it. -/
theorem scopes_eq (program : Program) :
    program.scoping.scopes.toList.map (fun scope => (scope.kind, scope.dynamic)) =
      (none, program.nodes.any TreeNode.looksUp) ::
        program.scopeNodes.map fun n => (n.scopeKind?, n.inside.any TreeNode.looksUp) := by
  have hbody : ∀ n ∈ program.body.map TreeNode.statement,
      Walks n.frame (n.nodes.any TreeNode.looksUp) (TreeNode.scopesOf n.nodes) :=
    fun n _ => n.walks
  have hwalks := TreeNode.walks_flatMap hbody
  rw [← statementsNodes_eq, ← BindingEvent.frame_statements] at hwalks
  have hwalk := hwalks (Scoping.outline {}) (by simp [Scoping.outline])
  rw [BindingEvent.foldl_frame, ← Scoping.outline_foldl] at hwalk
  refine (congrArg Outline.scopes hwalk).trans ?_
  simp [Scoping.outline, Outline.exposed, TreeNode.scopesOf, scopeNodes, nodes]

theorem scoping_scope {program : Program} {n : Nat} {node : TreeNode}
    (h : program.scopeNodes[n]? = some node) :
    ∃ scope, program.scoping.scopes[n + 1]? = some scope ∧
      scope.kind = node.scopeKind? ∧ scope.dynamic = node.inside.any TreeNode.looksUp := by
  have hscopes := congrArg (fun scopes => scopes[n + 1]?) program.scopes_eq
  simp only [List.getElem?_cons_succ, List.getElem?_map, h, Option.map_some,
    Array.getElem?_toList] at hscopes
  obtain ⟨scope, hscope, hsame⟩ := Option.map_eq_some_iff.mp hscopes
  obtain ⟨hkind, hdynamic⟩ := Prod.mk.inj hsame
  exact ⟨scope, hscope, hkind, hdynamic⟩

end Program

/-! ### Direct calls of `eval` -/

/-- An expression without the parentheses around it. -/
def Expression.withoutParens : Expression → Expression
  | .paren _ x => x.withoutParens
  | x => x

/-- Whether an expression is the name `eval`, in parentheses or not, however it is spelled. -/
def Expression.namesEval (x : Expression) : Bool :=
  match x.withoutParens with
  | .identifier id => sameName id.name "eval"
  | _ => false

namespace TreeNode

/-- Whether a node is a `with` statement or a direct call of `eval`: names are looked up there by
their spelling when the program runs. -/
def isDynamic : TreeNode → Bool
  | .statement (.withObject ..) => true
  | .expression (.call callee _) => callee.namesEval
  | _ => false

/-- Whether a node is a call of `eval` with the name in parentheses or with escapes in it. -/
def isDisguised : TreeNode → Bool
  | .expression (.call callee _) => callee.namesEval && !callee.isEval
  | _ => false

theorem looksUp_of_isDynamic {n : TreeNode} (h : n.isDynamic = true)
    (hplain : n.isDisguised = false) : n.looksUp = true := by
  unfold isDynamic at h
  split at h
  · rfl
  · simpa [isDisguised, looksUp, h] using hplain
  · cases h

end TreeNode

namespace Program

variable {source : String} {name : Option String} {program : Program}

/-- If there is a `with` statement or a direct call of `eval` inside a scope, at any depth, and the
call is not disguised, then no name that the scope binds is given another one, wherever it occurs. A
declaration for the scope occurs there as well, if it is not hidden in a handler. -/
theorem given_of_isDynamic (h : parse source name = .ok program) {n : Nat} {node inner : TreeNode}
    (hnode : program.scopeNodes[n]? = some node) (hinner : inner ∈ node.inside)
    (hdynamic : inner.isDynamic = true) (hplain : inner.isDisguised = false) {o : Occurrence}
    (ho : o ∈ program.scoping.occurrences)
    (hbound : program.scoping.binding o = some (n + 1) ∨
      (o, some (n + 1)) ∈ ({} : Scoping).declared program.events ∧ o ∉ program.hidden)
    (reserved : List String) : program.Given reserved o.id none := by
  obtain ⟨scope, hscope, -, hexposed⟩ := scoping_scope hnode
  have hfixed : scope.isFixed = true := by
    rw [Scope.isFixed, hexposed, Bool.or_eq_true_iff]
    exact .inr (List.any_eq_true.mpr ⟨inner, hinner, TreeNode.looksUp_of_isDynamic hdynamic hplain⟩)
  have hbinding : program.scoping.binding o = some (n + 1) := by
    rcases hbound with hbinding | ⟨hdeclared, hhidden⟩
    · exact hbinding
    · exact Scoping.binding_of_declared hdeclared hhidden
  refine given_of_kept h ho ?_
  rw [Scoping.called, hbinding]
  exact Scoping.newName_fixed hscope hfixed _

/-- The call stands in a function in a handler in `f`, and the parameter of `f` stays. -/
theorem given_of_isDynamic_nested : ∃ program node inner o,
    parse "function f(a)\x7btry\x7b\x7dcatch(b)\x7b(function(c)\x7beval(c)\x7d)\x7d\x7d" none =
      .ok program ∧
    program.scopeNodes[0]? = some node ∧ inner ∈ node.inside ∧ inner.isDynamic = true ∧
    inner.isDisguised = false ∧ o ∈ program.scoping.occurrences ∧
    program.scoping.binding o = some 1 ∧ program.Given reservedWords o.id none := by
  have hparse : ((parse
      "function f(a)\x7btry\x7b\x7dcatch(b)\x7b(function(c)\x7beval(c)\x7d)\x7d\x7d"
      none).toOption.any fun program =>
        program.scopeNodes[0]?.any (fun node =>
          node.inside.any fun inner => inner.isDynamic && !inner.isDisguised) &&
        program.scoping.occurrences.any fun o => program.scoping.binding o == some 1) = true := by
    decide +kernel
  obtain ⟨program, h, hrest⟩ := exists_ok_of_any hparse
  obtain ⟨hnodes, hoccurrences⟩ := Bool.and_eq_true_iff.mp hrest
  obtain ⟨node, hnode, hinside⟩ := (Option.any_eq_true ..).mp hnodes
  obtain ⟨inner, hinner, hcheck⟩ := List.any_eq_true.mp hinside
  obtain ⟨hdynamic, hplain⟩ := Bool.and_eq_true_iff.mp hcheck
  rw [Bool.not_eq_true'] at hplain
  obtain ⟨o, ho, hbinding⟩ := Array.any_eq_true'.mp hoccurrences
  rw [beq_iff_eq] at hbinding
  exact ⟨program, node, inner, o, h, hnode, hinner, hdynamic, hplain, ho, hbinding,
    given_of_isDynamic h hnode hinner hdynamic hplain ho (.inl hbinding) reservedWords⟩

/-- The call is not seen if the name is in parentheses: the parameter of the function is renamed. -/
theorem eval_unseen : ∃ program node inner o,
    parse "function f(x)\x7b(eval)(x)\x7d" none = .ok program ∧
    program.scopeNodes[0]? = some node ∧ inner ∈ node.inside ∧ inner.isDynamic = true ∧
    o ∈ program.scoping.occurrences ∧ program.scoping.binding o = some 1 ∧
    (program.obfuscate reservedWords)[o.id.pos.offset]? = some "a" ∧
    ¬ program.Given reservedWords o.id none := by
  have hparse : ((parse "function f(x)\x7b(eval)(x)\x7d" none).toOption.any fun program =>
      program.scopeNodes[0]?.any (fun node => node.inside.any TreeNode.isDynamic) &&
        program.scoping.occurrences.any fun o => program.scoping.binding o == some 1 &&
          (program.obfuscate (keywords ++ strictKeywords))[o.id.pos.offset]? == some "a") = true := by
    decide +kernel
  obtain ⟨program, h, hrest⟩ := exists_ok_of_any hparse
  obtain ⟨hnodes, hoccurrences⟩ := Bool.and_eq_true_iff.mp hrest
  obtain ⟨node, hnode, hinside⟩ := (Option.any_eq_true ..).mp hnodes
  obtain ⟨inner, hinner, hdynamic⟩ := List.any_eq_true.mp hinside
  obtain ⟨o, ho, hcheck⟩ := Array.any_eq_true'.mp hoccurrences
  obtain ⟨hbinding, hnew⟩ := Bool.and_eq_true_iff.mp hcheck
  rw [← obfuscate_reservedWords, beq_iff_eq] at hnew
  refine ⟨program, node, inner, o, h, hnode, hinner, hdynamic, ho, beq_iff_eq.mp hbinding, hnew, ?_⟩
  intro hgiven
  rw [hgiven.renames] at hnew
  cases hnew

end Program
end EcmaPress

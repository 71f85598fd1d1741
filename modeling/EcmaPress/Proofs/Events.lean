import EcmaPress.Binding.Event
import EcmaPress.Proofs.Relabelled

/-!
# Events and their names

The names that occur in events, and the events of a relabelled tree. A tree with new names does to
the new names what the tree did to the old ones. Only where names are looked up by their spelling
may change, as a call of `eval` is known by this name.
-/

namespace EcmaPress

namespace BindingEvent

/-- The name that an event binds or uses. -/
def id? : BindingEvent → Option Identifier
  | bind id | hoist id | use id => some id
  | enter _ | leave | lookUp => none

/-- The names that occur in events. -/
def ids (events : List BindingEvent) : List Identifier :=
  events.filterMap id?

@[simp] theorem ids_nil : ids [] = [] := rfl

@[simp] theorem ids_append (es fs : List BindingEvent) : ids (es ++ fs) = ids es ++ ids fs :=
  List.filterMap_append

section

variable (id : Identifier) (kind : ScopeKind) (es : List BindingEvent)

@[simp] theorem ids_bind : ids (bind id :: es) = id :: ids es := rfl

@[simp] theorem ids_hoist : ids (hoist id :: es) = id :: ids es := rfl

@[simp] theorem ids_use : ids (use id :: es) = id :: ids es := rfl

@[simp] theorem ids_lookUp : ids (lookUp :: es) = ids es := rfl

@[simp] theorem ids_enter : ids (enter kind :: es) = ids es := rfl

@[simp] theorem ids_leave : ids (leave :: es) = ids es := rfl

@[simp] theorem ids_scope : ids (scope kind es) = ids es := by
  simp [scope]

end

theorem ids_binds (xs : List Identifier) : ids (xs.map bind) = xs := by
  induction xs with
  | nil => rfl
  | cons x rest ih => rw [List.map_cons, ids_bind, ih]

/-- An event with new labels. -/
def relabel (r : Relabeling) : BindingEvent → BindingEvent
  | enter kind => enter kind
  | leave => leave
  | bind id => bind (r.identifier id)
  | hoist id => hoist (r.identifier id)
  | use id => use (r.identifier id)
  | lookUp => lookUp

/-- The events of a tree and those of the tree with new labels. They are the same events, but where
the name that is called becomes `eval`, names are looked up that were not, and where it was `eval`
and no longer is, they are looked up no more. -/
inductive Reworded (r : Relabeling) : List BindingEvent → List BindingEvent → Prop
  | nil : Reworded r [] []
  | cons (e : BindingEvent) {es fs : List BindingEvent} : Reworded r es fs →
    Reworded r (e :: es) (e.relabel r :: fs)
  | gained {id : Identifier} {es fs : List BindingEvent} : id.name ≠ "eval" → r.name id = "eval" →
    Reworded r es fs → Reworded r (use id :: es) (lookUp :: use (r.identifier id) :: fs)
  | lost {id : Identifier} {es fs : List BindingEvent} : id.name = "eval" → r.name id ≠ "eval" →
    Reworded r es fs → Reworded r (lookUp :: use id :: es) (use (r.identifier id) :: fs)

namespace Reworded

variable {r : Relabeling} {es es' fs fs' : List BindingEvent}

theorem append (h : Reworded r es fs) (h' : Reworded r es' fs') :
    Reworded r (es ++ es') (fs ++ fs') := by
  induction h with
  | nil => exact h'
  | cons e _ ih => exact .cons e ih
  | gained hold hnew _ ih => exact .gained hold hnew ih
  | lost hold hnew _ ih => exact .lost hold hnew ih

theorem binds (ids : List Identifier) :
    Reworded r (ids.map bind) ((ids.map r.identifier).map bind) := by
  induction ids with
  | nil => exact .nil
  | cons id ids ih => exact .cons (bind id) ih

theorem scope (kind : ScopeKind) (h : Reworded r es fs) :
    Reworded r (BindingEvent.scope kind es) (BindingEvent.scope kind fs) :=
  .cons (enter kind) (h.append (.cons leave .nil))

/-- Where names stay as they are, so do the events. -/
theorem eq_map (h : Reworded r es fs) (hname : ∀ id, r.name id = id.name) :
    fs = es.map (BindingEvent.relabel r) := by
  induction h with
  | nil => rfl
  | cons e _ ih => rw [ih, List.map_cons]
  | @gained id _ _ hold hnew => exact absurd (hname id ▸ hnew) hold
  | @lost id _ _ hold hnew => exact absurd (hname id ▸ hold) hnew

end Reworded
end BindingEvent

open BindingEvent

variable (r : Relabeling)

/-- The events of a part of a statement that may be missing. -/
def eventsOfPart {α : Type} (events : α → List BindingEvent) : Option α → List BindingEvent
  | none => []
  | some part => events part

theorem Statement.events_forLoop (pos : Position) (init : Option ForInit)
    (test update : Option Expression) (body : Statement) :
    (Statement.forLoop pos init test update body).events =
      eventsOfPart ForInit.events init ++ eventsOfPart Expression.events test ++
        eventsOfPart Expression.events update ++ body.events := by
  cases init <;> cases test <;> cases update <;> rfl

theorem Statement.events_tryCatch (pos : Position) (body : List Statement)
    (handler : Option CatchClause) (finalizer : Option (List Statement)) :
    (Statement.tryCatch pos body handler finalizer).events =
      statementsEvents body ++ eventsOfPart CatchClause.events handler ++
        eventsOfPart statementsEvents finalizer := by
  cases handler <;> cases finalizer <;> rfl

/-- A name that is called looks names up if it is `eval`. -/
theorem Expression.reworded_callee {x : Expression} (hx : Reworded r x.events (x.relabel r).events) :
    Reworded r ((if x.isEval then [lookUp] else []) ++ x.events)
      ((if (x.relabel r).isEval then [lookUp] else []) ++ (x.relabel r).events) := by
  cases x with
  | identifier id =>
    have hold : (Expression.identifier id).isEval = true ↔ id.name = "eval" := beq_iff_eq
    have hnew : ((Expression.identifier id).relabel r).isEval = true ↔ r.name id = "eval" :=
      beq_iff_eq
    by_cases h : id.name = "eval" <;> by_cases h' : r.name id = "eval"
    · rw [if_pos (hold.mpr h), if_pos (hnew.mpr h')]
      exact .cons lookUp (.cons (use id) .nil)
    · rw [if_pos (hold.mpr h), if_neg (mt hnew.mp h')]
      exact .lost h h' .nil
    · rw [if_neg (mt hold.mp h), if_pos (hnew.mpr h')]
      exact .gained h h' .nil
    · rw [if_neg (mt hold.mp h), if_neg (mt hnew.mp h')]
      exact .cons (use id) .nil
  | _ => exact hx

mutual

theorem Expression.reworded (x : Expression) : Reworded r x.events (x.relabel r).events := by
  cases x with
  | thisValue | literal => exact .nil
  | identifier id => exact .cons (use id) .nil
  | array _ elements => exact elements_reworded elements
  | object _ properties => exact properties_reworded properties
  | function function => exact function.reworded
  | paren _ x | unary _ _ x | preUpdate _ _ x | postUpdate _ _ x | newBare _ x | member x =>
    exact x.reworded
  | binary _ _ x y | assign _ _ x y | index x y => exact x.reworded.append y.reworded
  | conditional x y z => exact (x.reworded.append y.reworded).append z.reworded
  | call callee arguments =>
    exact (Expression.reworded_callee r callee.reworded).append (expressions_reworded arguments)
  | newCall _ callee arguments => exact callee.reworded.append (expressions_reworded arguments)
  | sequence expressions => exact expressions_reworded expressions

theorem expressions_reworded (xs : List Expression) :
    Reworded r (expressionsEvents xs) (expressionsEvents (relabelExpressions r xs)) := by
  cases xs with
  | nil => exact .nil
  | cons x rest => exact x.reworded.append (expressions_reworded rest)

theorem Element.reworded (x : Element) : Reworded r x.events (x.relabel r).events := by
  cases x with
  | hole => exact .nil
  | value value => exact value.reworded

theorem elements_reworded (xs : List Element) :
    Reworded r (elementsEvents xs) (elementsEvents (relabelElements r xs)) := by
  cases xs with
  | nil => exact .nil
  | cons x rest => exact x.reworded.append (elements_reworded rest)

theorem Property.reworded (p : Property) : Reworded r p.events (p.relabel r).events := by
  cases p with
  | init _ value => exact value.reworded
  | accessor _ _ function => exact function.reworded

theorem properties_reworded (xs : List Property) :
    Reworded r (propertiesEvents xs) (propertiesEvents (relabelProperties r xs)) := by
  cases xs with
  | nil => exact .nil
  | cons x rest => exact x.reworded.append (properties_reworded rest)

theorem Function.reworded (f : Function) : Reworded r f.events (f.relabel r).events := by
  cases f with
  | mk _ id params body =>
    have hid : Reworded r (id.toList.map bind) ((id.map r.identifier).toList.map bind) := by
      cases id with
      | none => exact .nil
      | some id => exact .cons (bind id) .nil
    exact .scope .function ((hid.append (.binds params)).append (statements_reworded body))

theorem Function.reworded_declaration (f : Function) :
    Reworded r f.declarationEvents (f.relabel r).declarationEvents := by
  cases f with
  | mk _ id params body =>
    have hid : Reworded r (id.toList.map hoist) ((id.map r.identifier).toList.map hoist) := by
      cases id with
      | none => exact .nil
      | some id => exact .cons (hoist id) .nil
    exact hid.append (.scope .function ((Reworded.binds params).append (statements_reworded body)))

theorem Declarator.reworded (d : Declarator) : Reworded r d.events (d.relabel r).events := by
  cases d with
  | bare id => exact .cons (hoist id) .nil
  | init id _ value => exact .cons (hoist id) value.reworded

theorem declarators_reworded (xs : List Declarator) :
    Reworded r (declaratorsEvents xs) (declaratorsEvents (relabelDeclarators r xs)) := by
  cases xs with
  | nil => exact .nil
  | cons x rest => exact x.reworded.append (declarators_reworded rest)

theorem ForInit.reworded (init : ForInit) : Reworded r init.events (init.relabel r).events := by
  cases init with
  | declarations _ declarators => exact declarators_reworded declarators
  | expression x => exact x.reworded

theorem SwitchClause.reworded (clause : SwitchClause) :
    Reworded r clause.events (clause.relabel r).events := by
  cases clause with
  | mk test body =>
    cases test with
    | none => exact statements_reworded body
    | some test => exact test.reworded.append (statements_reworded body)

theorem clauses_reworded (xs : List SwitchClause) :
    Reworded r (clausesEvents xs) (clausesEvents (relabelClauses r xs)) := by
  cases xs with
  | nil => exact .nil
  | cons x rest => exact x.reworded.append (clauses_reworded rest)

theorem CatchClause.reworded (clause : CatchClause) :
    Reworded r clause.events (clause.relabel r).events := by
  cases clause with
  | mk param body => exact .scope .handler (.cons (bind param) (statements_reworded body))

theorem Statement.reworded (s : Statement) : Reworded r s.events (s.relabel r).events := by
  cases s with
  | block body => exact statements_reworded body
  | declarations _ declarators => exact declarators_reworded declarators
  | empty | debugger | jump => exact .nil
  | expression x | throwValue _ x => exact x.reworded
  | ifElse _ test consequent alternate =>
    cases alternate with
    | none => exact (test.reworded.append consequent.reworded).append .nil
    | some alternate => exact (test.reworded.append consequent.reworded).append alternate.reworded
  | doWhile _ body test | whileDo _ test body => exact body.reworded.append test.reworded
  | forLoop _ init test update body =>
    rw [Statement.relabel_forLoop, Statement.events_forLoop, Statement.events_forLoop]
    refine .append (.append (.append ?_ ?_) ?_) body.reworded
    · cases init with
      | none => exact .nil
      | some init => exact init.reworded
    · cases test with
      | none => exact .nil
      | some test => exact test.reworded
    · cases update with
      | none => exact .nil
      | some update => exact update.reworded
  | forIn _ left right body => exact (left.reworded.append right.reworded).append body.reworded
  | returnValue _ argument =>
    cases argument with
    | none => exact .nil
    | some x => exact x.reworded
  | withObject _ object body => exact object.reworded.append (.cons lookUp body.reworded)
  | switch _ discriminant clauses => exact discriminant.reworded.append (clauses_reworded clauses)
  | labeled _ body => exact body.reworded
  | tryCatch _ body handler finalizer =>
    rw [Statement.relabel_tryCatch, Statement.events_tryCatch, Statement.events_tryCatch]
    refine .append (.append (statements_reworded body) ?_) ?_
    · cases handler with
      | none => exact .nil
      | some handler => exact handler.reworded
    · cases finalizer with
      | none => exact .nil
      | some finalizer => exact statements_reworded finalizer
  | function function => exact function.reworded_declaration

theorem statements_reworded (xs : List Statement) :
    Reworded r (statementsEvents xs) (statementsEvents (relabelStatements r xs)) := by
  cases xs with
  | nil => exact .nil
  | cons x rest => exact x.reworded.append (statements_reworded rest)

end

end EcmaPress

import EcmaPress.Proofs.Events
import EcmaPress.Proofs.ProperTrees

/-!
# The names that occur are those that are printed

In a tree that a parser has made, the names in the binding events are the names among the pieces,
each of them as often. Their order differs where a walk and the text do, and only a tree that no
parser makes, with an accessor that has a name of its own, would bind a name that is not printed.
-/

namespace EcmaPress

/-- The name that a piece writes, if it may be exchanged for another one. -/
def Piece.id? : Piece → Option Identifier
  | name id => some id
  | token .. | terminator _ | space | newline | indent | dedent => none

/-- The names among pieces. -/
def Piece.ids (pieces : List Piece) : List Identifier :=
  pieces.filterMap id?

/-- The names of events and pieces are the same, each as often. -/
def Tally (events : List BindingEvent) (pieces : List Piece) : Prop :=
  (BindingEvent.ids events).Perm (Piece.ids pieces)

/-! ### Names of lists -/

namespace Piece

@[simp] theorem ids_nil : ids [] = [] := rfl

@[simp] theorem ids_append (ps qs : List Piece) : ids (ps ++ qs) = ids ps ++ ids qs :=
  List.filterMap_append

section

variable (ps : List Piece)

@[simp] theorem ids_name (id : Identifier) : ids (name id :: ps) = id :: ids ps := rfl

@[simp] theorem ids_sign (s : String) : ids (sign s :: ps) = ids ps := rfl

@[simp] theorem ids_mapped (s : String) (pos : Position) : ids (mapped s pos :: ps) = ids ps := rfl

@[simp] theorem ids_token (s : String) (origin : Option Position) (shape : Shape) :
    ids (token s origin shape :: ps) = ids ps := rfl

@[simp] theorem ids_terminator (last : Bool) : ids (terminator last :: ps) = ids ps := rfl

@[simp] theorem ids_space : ids (space :: ps) = ids ps := rfl

@[simp] theorem ids_newline : ids (newline :: ps) = ids ps := rfl

@[simp] theorem ids_indent : ids (indent :: ps) = ids ps := rfl

@[simp] theorem ids_dedent : ids (dedent :: ps) = ids ps := rfl

@[simp] theorem ids_comma (isLast : Bool) : ids (comma isLast) = [] := by
  cases isLast <;> rfl

@[simp] theorem ids_inParens : ids (inParens ps) = ids ps := by
  simp [inParens]

@[simp] theorem ids_inBraces : ids (inBraces ps) = ids ps := by
  unfold inBraces
  split
  · next h => rw [List.isEmpty_iff.mp h]; rfl
  · simp

end

@[simp] theorem ids_parameters (xs : List Identifier) : ids (parameters xs) = xs := by
  induction xs with
  | nil => rfl
  | cons x rest ih => simp [parameters, ih]

end Piece

@[simp] theorem Statement.ids_bodyPieces (s : Statement) (ps : List Piece) :
    Piece.ids (s.bodyPieces ps) = Piece.ids ps := by
  unfold bodyPieces
  split <;> simp

@[simp] theorem Statement.ids_afterBody (s : Statement) (ps : List Piece) :
    Piece.ids (s.afterBody :: ps) = Piece.ids ps := by
  unfold afterBody
  split <;> rfl

/-! ### Nodes -/

/-- The names that occur in a node are those that it prints. -/
def TreeNode.Tallied : TreeNode → Prop
  | .expression x => Tally x.events x.pieces
  | .statement s => ∀ last, Tally s.events (s.pieces last)
  | .function f => Tally f.events f.pieces
  | .handler h => Tally h.events h.pieces

attribute [local simp] Tally
  Expression.events Element.events Property.events Function.events Declarator.events ForInit.events
  SwitchClause.events CatchClause.events Statement.events Function.declarationEvents
  expressionsEvents elementsEvents propertiesEvents declaratorsEvents clausesEvents
  statementsEvents BindingEvent.ids_binds
  Expression.pieces Element.pieces Property.pieces Function.pieces Declarator.pieces ForInit.pieces
  SwitchClause.pieces CatchClause.pieces Statement.pieces expressionsPieces elementsPieces
  propertiesPieces declaratorsPieces clausesPieces statementsPieces

/-- Nodes that print the names that occur in them. -/
def AllTallied (ns : List TreeNode) : Prop :=
  ∀ n ∈ ns, n.Tallied

namespace AllTallied

theorem append {ns ms : List TreeNode} :
    AllTallied (ns ++ ms) ↔ AllTallied ns ∧ AllTallied ms :=
  List.forall_mem_append

theorem one {n : TreeNode} : AllTallied [n] ↔ n.Tallied :=
  List.forall_mem_singleton

theorem cons {n : TreeNode} {ns : List TreeNode} :
    AllTallied (n :: ns) ↔ n.Tallied ∧ AllTallied ns :=
  List.forall_mem_cons

theorem expressions {xs : List Expression} (h : AllTallied (xs.map .expression)) :
    Tally (expressionsEvents xs) (expressionsPieces xs) := by
  induction xs with
  | nil => exact .nil
  | cons x xs ih =>
    obtain ⟨hx, hxs⟩ := cons.mp h
    simpa using List.Perm.append hx (ih hxs)

theorem elements {xs : List Element} (h : AllTallied (xs.flatMap Element.children)) :
    Tally (elementsEvents xs) (elementsPieces xs) := by
  induction xs with
  | nil => exact .nil
  | cons x xs ih =>
    obtain ⟨hx, hxs⟩ := append.mp h
    cases x with
    | hole =>
      cases xs with
      | nil => exact .nil
      | cons => simpa using ih hxs
    | value value => simpa using List.Perm.append (one.mp hx) (ih hxs)

/-- Properties with accessors that have no names of their own. -/
theorem properties {xs : List Property} (hnameless : ∀ p ∈ xs, p.isNameless = true)
    (h : AllTallied (xs.flatMap Property.children)) :
    Tally (propertiesEvents xs) (propertiesPieces xs) := by
  induction xs with
  | nil => exact .nil
  | cons p xs ih =>
    obtain ⟨hp, hxs⟩ := append.mp h
    obtain ⟨hid, hnameless⟩ := List.forall_mem_cons.mp hnameless
    have hrest := ih hnameless hxs
    cases p with
    | init _ value =>
      have hparts := List.Perm.append (one.mp hp) hrest
      cases hempty : xs.isEmpty <;> simpa [hempty] using hparts
    | accessor _ _ f =>
      obtain ⟨_, id, _, body⟩ := f
      obtain rfl : id = none := Option.isNone_iff_eq_none.mp hid
      have hparts := List.Perm.append (one.mp hp) hrest
      cases hempty : xs.isEmpty <;> simpa [hempty] using hparts

theorem declarators {xs : List Declarator} (h : AllTallied (xs.flatMap Declarator.children)) :
    Tally (declaratorsEvents xs) (declaratorsPieces xs) := by
  induction xs with
  | nil => exact .nil
  | cons d xs ih =>
    obtain ⟨hd, hxs⟩ := append.mp h
    cases d with
    | bare => simpa using ih hxs
    | init => simpa using List.Perm.append (one.mp hd) (ih hxs)

theorem statements {xs : List Statement} (h : AllTallied (xs.map .statement)) (last : Bool) :
    Tally (statementsEvents xs) (statementsPieces last xs) := by
  induction xs with
  | nil => exact .nil
  | cons s xs ih =>
    obtain ⟨hs, hxs⟩ := cons.mp h
    simpa using List.Perm.append (hs _) (ih hxs)

theorem clauses {xs : List SwitchClause} (h : AllTallied (xs.flatMap SwitchClause.children)) :
    Tally (clausesEvents xs) (clausesPieces xs) := by
  induction xs with
  | nil => exact .nil
  | cons clause xs ih =>
    obtain ⟨hclause, hxs⟩ := append.mp h
    obtain ⟨test, body⟩ := clause
    obtain ⟨htest, hbody⟩ := append.mp hclause
    have hlines := List.Perm.append (statements hbody xs.isEmpty) (ih hxs)
    cases test with
    | none => simpa using hlines
    | some test => simpa using List.Perm.append (one.mp htest) hlines

theorem forInit {init : ForInit} (h : AllTallied init.children) :
    Tally init.events init.pieces := by
  cases init with
  | declarations _ declarators => simpa using AllTallied.declarators h
  | expression x => exact one.mp h

/-- The expressions of a part that may be missing. -/
theorem part {part : Option Expression} (h : AllTallied (part.toList.map .expression)) :
    ∀ x ∈ part, Tally x.events x.pieces := by
  rintro x rfl
  exact one.mp h

end AllTallied

/-- The names of a part of a statement that may be missing. -/
theorem Tally.part {α : Type} {part : Option α} {events : α → List BindingEvent}
    {pieces : α → List Piece} (hpart : ∀ x ∈ part, Tally (events x) (pieces x)) :
    Tally (match part with | .none => [] | .some x => events x)
      (match part with | .none => [] | .some x => pieces x) := by
  cases part with
  | none => exact .nil
  | some x => exact hpart x rfl

namespace TreeNode

open AllTallied

/-- A proper node prints the names that occur in it if its children do. -/
theorem tallied_node {n : TreeNode} (hproper : n.Proper) (h : AllTallied n.children) :
    n.Tallied := by
  cases n with
  | expression x =>
    cases x with
    | thisValue | literal => exact .nil
    | identifier id => exact .refl [id]
    | array => simpa [Tallied] using AllTallied.elements h
    | object _ properties =>
      have hproperties := AllTallied.properties (List.all_eq_true.mp hproper) h
      cases properties with
      | nil => exact .nil
      | cons => simpa [Tallied] using hproperties
    | function f =>
      have hf : (function f).Tallied := one.mp h
      exact hf
    | unary op =>
      have hargument : Tally _ _ := one.mp h
      cases hword : op.isWord <;> simpa [Tallied, hword] using hargument
    | paren | preUpdate | postUpdate | newBare | member => simpa [Tallied] using one.mp h
    | binary | assign | index =>
      obtain ⟨hleft, hright⟩ := cons.mp h
      simpa [Tallied] using List.Perm.append hleft (one.mp hright)
    | conditional =>
      obtain ⟨htest, hparts⟩ := cons.mp h
      obtain ⟨hconsequent, halternate⟩ := cons.mp hparts
      simpa [Tallied] using
        List.Perm.append htest (List.Perm.append hconsequent (one.mp halternate))
    | call callee =>
      obtain ⟨hcallee, harguments⟩ := cons.mp h
      have hparts := List.Perm.append hcallee (AllTallied.expressions harguments)
      cases heval : callee.isEval <;> simpa [Tallied, heval] using hparts
    | newCall =>
      obtain ⟨hcallee, harguments⟩ := cons.mp h
      simpa [Tallied] using List.Perm.append hcallee (AllTallied.expressions harguments)
    | sequence => exact AllTallied.expressions h
  | statement s =>
    intro last
    cases s with
    | block => simpa using AllTallied.statements h true
    | declarations => simpa using AllTallied.declarators h
    | empty | debugger => exact .nil
    | jump _ _ label => cases label <;> exact .nil
    | expression | throwValue => simpa [Tallied] using one.mp h
    | labeled => simpa using one.mp h last
    | ifElse _ _ _ alternate =>
      obtain ⟨htest, hparts⟩ := cons.mp h
      obtain ⟨hconsequent, halternate⟩ := cons.mp hparts
      cases alternate with
      | none => simpa using List.Perm.append htest (hconsequent last)
      | some alternate =>
        have hparts := List.Perm.append htest
          (List.Perm.append (hconsequent false) (one.mp halternate last))
        cases hif : alternate.isIf <;> simpa [hif] using hparts
    | doWhile =>
      obtain ⟨hbody, htest⟩ := cons.mp h
      simpa using List.Perm.append (hbody false) (one.mp htest)
    | whileDo =>
      -- The walk comes to the body of this loop first.
      obtain ⟨hbody, htest⟩ := cons.mp h
      simpa using List.perm_append_comm.trans (List.Perm.append (one.mp htest) (hbody last))
    | forLoop _ init test update =>
      obtain ⟨hparts, hbody⟩ := append.mp h
      obtain ⟨hparts, hupdate⟩ := append.mp hparts
      obtain ⟨hinit, htest⟩ := append.mp hparts
      have hfirst : ∀ x ∈ init, Tally (ForInit.events x) x.pieces := by
        rintro x rfl
        exact AllTallied.forInit (by simpa using hinit)
      have hparts := List.Perm.append (Tally.part hfirst)
        (List.Perm.append (Tally.part (AllTallied.part htest))
          (List.Perm.append (Tally.part (AllTallied.part hupdate)) (one.mp hbody last)))
      cases init <;> cases test <;> cases update <;> simpa using hparts
    | forIn _ left =>
      obtain ⟨hleft, hparts⟩ := append.mp h
      obtain ⟨hright, hbody⟩ := cons.mp hparts
      simpa using List.Perm.append (AllTallied.forInit hleft)
        (List.Perm.append hright (one.mp hbody last))
    | returnValue _ argument =>
      cases argument with
      | none => exact .nil
      | some => simpa [Tallied] using one.mp h
    | withObject =>
      obtain ⟨hobject, hbody⟩ := cons.mp h
      simpa using List.Perm.append hobject (one.mp hbody last)
    | switch _ _ clauses =>
      obtain ⟨hdiscriminant, hclauses⟩ := cons.mp h
      have hparts := List.Perm.append hdiscriminant (AllTallied.clauses hclauses)
      cases hempty : clauses.isEmpty <;> simpa [hempty] using hparts
    | tryCatch _ _ handler finalizer =>
      obtain ⟨hparts, hlast⟩ := append.mp h
      obtain ⟨hbody, hhandler⟩ := append.mp hparts
      have hhandler : ∀ clause ∈ handler, Tally (CatchClause.events clause) clause.pieces := by
        rintro clause rfl
        exact one.mp hhandler
      have hlast : ∀ xs ∈ finalizer, Tally (statementsEvents xs) (statementsPieces true xs) := by
        rintro xs rfl
        exact AllTallied.statements hlast true
      have hparts := List.Perm.append (AllTallied.statements hbody true)
        (List.Perm.append (Tally.part hhandler) (Tally.part hlast))
      cases handler <;> cases finalizer <;> simpa using hparts
    | function f =>
      obtain ⟨_, id, _, _⟩ := f
      have hf := one.mp h
      cases id <;> simpa [Tallied] using hf
  | function f =>
    obtain ⟨_, id, params, _⟩ := f
    have hparts := List.Perm.append_left params (AllTallied.statements h true)
    cases id <;> simpa [Tallied] using hparts
  | handler clause =>
    obtain ⟨_, _⟩ := clause
    simpa [Tallied] using AllTallied.statements h true

end TreeNode

/-- The names that occur in a program are those that it prints, each as often. -/
theorem Program.tally : Grammar.program.Ensures fun program =>
    Tally program.events program.pieces := by
  refine Program.allProper.imp fun program hbody => ?_
  have hgo (body : List Statement) :
      Piece.ids (Program.pieces.go body) = Piece.ids (statementsPieces true body) := by
    induction body with
    | nil => rfl
    | cons s body ih => simp [Program.pieces.go, ih]
  rw [Tally, Program.pieces, hgo]
  refine AllTallied.statements (List.forall_mem_map.mpr fun s hs => ?_) true
  exact TreeNode.AllProper.induction (fun _ => TreeNode.tallied_node) (hbody s hs)

end EcmaPress

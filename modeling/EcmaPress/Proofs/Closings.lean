import EcmaPress.Proofs.ProperTrees
import EcmaPress.Proofs.Relabelled

/-!
# The last semicolons of lists

The pieces of a tree tell of each semicolon that ends a statement whether the statement is the last
one of a list. In a tree that a parser has made this is so exactly if the next token is a closing
brace, or if there is no next token. For the statements of a list that stand behind another one
begin with a token, and this is no closing brace.
-/

namespace EcmaPress
namespace Piece

/-- Whether a closing brace is the next thing to write. The flag answers for what stands behind. -/
def meetsBrace (after : Bool) : List Piece → Bool
  | [] => after
  | .token text _ _ :: _ => text == "\x7d"
  | .name _ :: _ | .terminator _ :: _ => false
  | .space :: ps | .newline :: ps | .indent :: ps | .dedent :: ps => meetsBrace after ps

/-- Whether a semicolon is the last one of a list exactly if it stands before a closing brace. -/
def isFlagged (after : Bool) : List Piece → Bool
  | [] => true
  | .terminator last :: ps => last == meetsBrace after ps && isFlagged after ps
  | .token .. :: ps | .name _ :: ps | .space :: ps | .newline :: ps | .indent :: ps
  | .dedent :: ps => isFlagged after ps

/-! ### Lists of pieces -/

section

variable (after : Bool) (ps qs : List Piece)

@[simp] theorem meetsBrace_append :
    meetsBrace after (ps ++ qs) = meetsBrace (meetsBrace after qs) ps := by
  induction ps with
  | nil => rfl
  | cons p ps ih => cases p <;> simp [meetsBrace, ih]

@[simp] theorem isFlagged_append :
    isFlagged after (ps ++ qs) = (isFlagged (meetsBrace after qs) ps && isFlagged after qs) := by
  induction ps with
  | nil => rfl
  | cons p ps ih => cases p <;> simp [isFlagged, ih, Bool.and_assoc]

@[simp] theorem meetsBrace_sign (s : String) :
    meetsBrace after (sign s :: ps) = (s == "\x7d") := rfl

@[simp] theorem meetsBrace_mapped (s : String) (pos : Position) :
    meetsBrace after (mapped s pos :: ps) = (s == "\x7d") := rfl

@[simp] theorem isFlagged_sign (s : String) :
    isFlagged after (sign s :: ps) = isFlagged after ps := rfl

@[simp] theorem isFlagged_mapped (s : String) (pos : Position) :
    isFlagged after (mapped s pos :: ps) = isFlagged after ps := rfl

@[simp] theorem isFlagged_comma (isLast : Bool) : isFlagged after (comma isLast) = true := by
  cases isLast <;> rfl

@[simp] theorem isFlagged_parameters (xs : List Identifier) :
    isFlagged after (parameters xs) = true := by
  induction xs generalizing after with
  | nil => rfl
  | cons x rest ih => simp [parameters, isFlagged, ih]

@[simp] theorem isFlagged_inParens : isFlagged after (inParens ps) = isFlagged false ps := by
  simp [inParens, isFlagged]

@[simp] theorem isFlagged_inBraces : isFlagged after (inBraces ps) = isFlagged true ps := by
  unfold inBraces
  split
  · next h => rw [List.isEmpty_iff.mp h]; rfl
  · simp [isFlagged, meetsBrace]

end

end Piece

open Piece

@[simp] theorem Statement.meetsBrace_bodyPieces (s : Statement) (after : Bool) (ps : List Piece) :
    meetsBrace after (s.bodyPieces ps) = meetsBrace after ps := by
  unfold bodyPieces
  split <;> simp [meetsBrace]

@[simp] theorem Statement.isFlagged_bodyPieces (s : Statement) (after : Bool) (ps : List Piece) :
    isFlagged after (s.bodyPieces ps) = isFlagged after ps := by
  unfold bodyPieces
  split <;> simp [isFlagged, meetsBrace]

@[simp] theorem Statement.meetsBrace_afterBody (s : Statement) (after : Bool) (ps : List Piece) :
    meetsBrace after (s.afterBody :: ps) = meetsBrace after ps := by
  unfold afterBody
  split <;> rfl

@[simp] theorem Statement.isFlagged_afterBody (s : Statement) (after : Bool) (ps : List Piece) :
    isFlagged after (s.afterBody :: ps) = isFlagged after ps := by
  unfold afterBody
  split <;> rfl

/-! ### Nodes -/

/-- The semicolons in a node know their place, whatever stands behind it. A statement is told
whether it is the last one of a list, and its own semicolon knows its place if this is right. -/
def TreeNode.Flagged : TreeNode → Prop
  | .expression x => ∀ after, isFlagged after x.pieces = true
  | .statement s => ∀ last, isFlagged last (s.pieces last) = true
  | .function f => ∀ after, isFlagged after f.pieces = true
  | .handler h => ∀ after, isFlagged after h.pieces = true

/-- Nodes that are proper and whose semicolons know their place. -/
def AllFlagged (ns : List TreeNode) : Prop :=
  ∀ n ∈ ns, n.Proper ∧ n.Flagged

attribute [local simp] isFlagged meetsBrace
  Expression.pieces Element.pieces Property.pieces Function.pieces Declarator.pieces ForInit.pieces
  SwitchClause.pieces CatchClause.pieces Statement.pieces expressionsPieces elementsPieces
  propertiesPieces declaratorsPieces clausesPieces statementsPieces

/-- No statement of a proper tree begins with a closing brace. -/
theorem TreeNode.Proper.meetsBrace {s : Statement} (h : (TreeNode.statement s).Proper)
    (last after : Bool) : meetsBrace after (s.pieces last) = false := by
  have hopens := h last
  cases hpieces : s.pieces last with
  | nil => rw [hpieces] at hopens; exact hopens.elim
  | cons p ps =>
    rw [hpieces] at hopens
    cases p with
    | token text => exact beq_eq_false_iff_ne.mpr hopens
    | name | terminator => rfl
    | _ => exact hopens.elim

namespace AllFlagged

theorem append {ns ms : List TreeNode} :
    AllFlagged (ns ++ ms) ↔ AllFlagged ns ∧ AllFlagged ms :=
  List.forall_mem_append

theorem one {n : TreeNode} : AllFlagged [n] ↔ n.Proper ∧ n.Flagged :=
  List.forall_mem_singleton

theorem cons {n : TreeNode} {ns : List TreeNode} :
    AllFlagged (n :: ns) ↔ (n.Proper ∧ n.Flagged) ∧ AllFlagged ns :=
  List.forall_mem_cons

theorem expressions {xs : List Expression} (h : AllFlagged (xs.map .expression)) (after : Bool) :
    isFlagged after (expressionsPieces xs) = true := by
  induction xs with
  | nil => rfl
  | cons x xs ih =>
    obtain ⟨⟨-, hx⟩, hxs⟩ := cons.mp h
    simp [hx _, ih hxs]

theorem elements {xs : List Element} (h : AllFlagged (xs.flatMap Element.children)) (after : Bool) :
    isFlagged after (elementsPieces xs) = true := by
  induction xs with
  | nil => rfl
  | cons x xs ih =>
    obtain ⟨hx, hxs⟩ := append.mp h
    cases x with
    | hole =>
      cases xs with
      | nil => rfl
      | cons => simpa using ih hxs
    | value value =>
      obtain ⟨-, hvalue⟩ := one.mp hx
      simp [hvalue _, ih hxs]

theorem properties {xs : List Property} (h : AllFlagged (xs.flatMap Property.children))
    (after : Bool) : isFlagged after (propertiesPieces xs) = true := by
  induction xs with
  | nil => rfl
  | cons p xs ih =>
    obtain ⟨hp, hxs⟩ := append.mp h
    cases p with
    | init _ value =>
      obtain ⟨-, hvalue⟩ := one.mp hp
      cases hempty : xs.isEmpty <;> simp [hempty, hvalue _, ih hxs]
    | accessor _ _ f =>
      obtain ⟨_, id, _, body⟩ := f
      obtain ⟨-, hf⟩ := one.mp hp
      have hbody : isFlagged true (statementsPieces true body) = true := by
        cases id <;> simpa using hf true
      cases hempty : xs.isEmpty <;> simp [hempty, hbody, ih hxs]

theorem declarators {xs : List Declarator} (h : AllFlagged (xs.flatMap Declarator.children))
    (after : Bool) : isFlagged after (declaratorsPieces xs) = true := by
  induction xs with
  | nil => rfl
  | cons d xs ih =>
    obtain ⟨hd, hxs⟩ := append.mp h
    cases d with
    | bare => simp [ih hxs]
    | init _ _ value =>
      obtain ⟨-, hvalue⟩ := one.mp hd
      simp [hvalue _, ih hxs]

/-- Behind a list that goes on stands its next statement, and this is no closing brace. -/
theorem statements {xs : List Statement} (h : AllFlagged (xs.map .statement)) (last : Bool) :
    isFlagged last (statementsPieces last xs) = true ∧
      meetsBrace last (statementsPieces last xs) = (last && xs.isEmpty) := by
  induction xs with
  | nil => simp
  | cons s rest ih =>
    obtain ⟨⟨hproper, hs⟩, hrest⟩ := cons.mp h
    obtain ⟨hflagged, hmeets⟩ := ih hrest
    simp [hs _, hproper.meetsBrace, hflagged, hmeets]

/-- Behind a clause of `switch` stands the keyword of the next one, and behind the last one the
closing brace. -/
theorem clauses {xs : List SwitchClause} (h : AllFlagged (xs.flatMap SwitchClause.children)) :
    isFlagged true (clausesPieces xs) = true ∧
      meetsBrace true (clausesPieces xs) = xs.isEmpty := by
  induction xs with
  | nil => simp
  | cons clause rest ih =>
    obtain ⟨hclause, hrest⟩ := append.mp h
    obtain ⟨hflagged, hmeets⟩ := ih hrest
    obtain ⟨test, body⟩ := clause
    obtain ⟨htest, hbody⟩ := append.mp hclause
    have hlines := (statements hbody rest.isEmpty).1
    cases test with
    | none => simp [hlines, hflagged, hmeets]
    | some test =>
      obtain ⟨-, htest⟩ := one.mp htest
      simp [htest _, hlines, hflagged, hmeets]

theorem forInit {init : ForInit} (h : AllFlagged init.children) (after : Bool) :
    isFlagged after init.pieces = true := by
  cases init with
  | declarations _ declarators => simpa using AllFlagged.declarators h after
  | expression x => exact (one.mp h).2 after

/-- An expression of `for` that may be missing. -/
theorem part {part : Option Expression} (h : AllFlagged (part.toList.map .expression))
    (after : Bool) :
    isFlagged after (piecesOfPart (fun x => space :: Expression.pieces x) part) = true := by
  cases part with
  | none => rfl
  | some x => exact (one.mp h).2 after

end AllFlagged

namespace TreeNode

open AllFlagged

/-- Semicolons know their place in a node if they do in its children, and these are proper. -/
theorem flagged_node {n : TreeNode} (h : AllFlagged n.children) : n.Flagged := by
  cases n with
  | expression x =>
    intro after
    cases x with
    | thisValue | identifier | literal => rfl
    | array => simp [AllFlagged.elements h]
    | object _ properties =>
      have hproperties := AllFlagged.properties h
      cases properties with
      | nil => rfl
      | cons => simpa using hproperties true
    | function => exact (one.mp h).2 after
    | unary op => cases hword : op.isWord <;> simp [hword, (one.mp h).2 _]
    | paren | preUpdate | postUpdate | newBare | member => simp [(one.mp h).2 _]
    | binary | assign | index =>
      obtain ⟨⟨-, hleft⟩, hright⟩ := cons.mp h
      simp [hleft _, (one.mp hright).2 _]
    | conditional =>
      obtain ⟨⟨-, htest⟩, hparts⟩ := cons.mp h
      obtain ⟨⟨-, hconsequent⟩, halternate⟩ := cons.mp hparts
      simp [htest _, hconsequent _, (one.mp halternate).2 _]
    | call | newCall =>
      obtain ⟨⟨-, hcallee⟩, harguments⟩ := cons.mp h
      simp [hcallee _, AllFlagged.expressions harguments]
    | sequence => simp [AllFlagged.expressions h]
  | statement s =>
    intro last
    cases s with
    | empty | debugger => simp
    | jump _ _ label => cases label <;> simp
    | block => simp [(AllFlagged.statements h true).1]
    | declarations => simp [AllFlagged.declarators h]
    | expression | throwValue | labeled => simp [(one.mp h).2 _]
    | ifElse _ _ _ alternate =>
      obtain ⟨⟨-, htest⟩, hparts⟩ := cons.mp h
      obtain ⟨⟨-, hconsequent⟩, halternate⟩ := cons.mp hparts
      cases alternate with
      | none => simp [htest _, hconsequent _]
      | some alternate =>
        cases hif : alternate.isIf <;> simp [hif, htest _, hconsequent _, (one.mp halternate).2 _]
    | doWhile | whileDo | withObject =>
      obtain ⟨⟨-, hfirst⟩, hsecond⟩ := cons.mp h
      simp [hfirst _, (one.mp hsecond).2 _]
    | forLoop _ init =>
      obtain ⟨hparts, hbody⟩ := append.mp h
      obtain ⟨hparts, hupdate⟩ := append.mp hparts
      obtain ⟨hinit, htest⟩ := append.mp hparts
      have hfirst (after : Bool) : isFlagged after (piecesOfPart ForInit.pieces init) = true := by
        cases init with
        | none => rfl
        | some init => exact AllFlagged.forInit (by simpa using hinit) after
      rw [Statement.pieces_forLoop]
      simp [hfirst, AllFlagged.part htest, AllFlagged.part hupdate, (one.mp hbody).2 _]
    | forIn =>
      obtain ⟨hleft, hparts⟩ := append.mp h
      obtain ⟨⟨-, hright⟩, hbody⟩ := cons.mp hparts
      simp [AllFlagged.forInit hleft, hright _, (one.mp hbody).2 _]
    | returnValue _ argument =>
      cases argument with
      | none => simp
      | some => simp [(one.mp h).2 _]
    | switch _ _ clauses =>
      obtain ⟨⟨-, hdiscriminant⟩, hclauses⟩ := cons.mp h
      have hclauses := (AllFlagged.clauses hclauses).1
      cases hempty : clauses.isEmpty <;> simp [hempty, hdiscriminant _, hclauses]
    | tryCatch _ _ handler finalizer =>
      obtain ⟨hparts, hlast⟩ := append.mp h
      obtain ⟨hbody, hhandler⟩ := append.mp hparts
      have hbody := (AllFlagged.statements hbody true).1
      have hhandler (after : Bool) :
          isFlagged after (piecesOfPart CatchClause.pieces handler) = true := by
        cases handler with
        | none => rfl
        | some => exact (one.mp hhandler).2 after
      have hlast (after : Bool) :
          isFlagged after (piecesOfPart lastPartPieces finalizer) = true := by
        cases finalizer with
        | none => rfl
        | some xs => simpa [piecesOfPart, lastPartPieces] using (AllFlagged.statements hlast true).1
      rw [Statement.pieces_tryCatch]
      simp [hbody, hhandler, hlast]
    | function => exact (one.mp h).2 last
  | function f =>
    intro after
    obtain ⟨_, id, _, _⟩ := f
    cases id <;> simp [(AllFlagged.statements h true).1]
  | handler clause =>
    intro after
    obtain ⟨_, _⟩ := clause
    simp [(AllFlagged.statements h true).1]

/-- In a proper tree all semicolons know their place. -/
theorem AllProper.flagged {n : TreeNode} (h : n.AllProper) : n.Proper ∧ n.Flagged :=
  AllProper.induction (P := fun n => n.Proper ∧ n.Flagged)
    (fun _ hn hchildren => ⟨hn, flagged_node hchildren⟩) h

end TreeNode

/-- A semicolon of a program is the last one of a list exactly if a closing brace or the end of the
program is next. -/
theorem Program.flagged : Grammar.program.Ensures fun program =>
    isFlagged true program.pieces = true := by
  refine Program.allProper.imp fun program hbody => ?_
  have hgo (body : List Statement) (hbody : ∀ s ∈ body, s.AllProper) :
      isFlagged true (Program.pieces.go body) = true ∧
        Piece.meetsBrace true (Program.pieces.go body) = body.isEmpty := by
    induction body with
    | nil => simp [Program.pieces.go]
    | cons s body ih =>
      obtain ⟨hs, hrest⟩ := List.forall_mem_cons.mp hbody
      obtain ⟨hflagged, hmeets⟩ := ih hrest
      obtain ⟨hproper, hs⟩ := TreeNode.AllProper.flagged hs
      simp [Program.pieces.go, hs _, hproper.meetsBrace, hflagged, hmeets]
  exact (hgo program.body hbody).1

end EcmaPress

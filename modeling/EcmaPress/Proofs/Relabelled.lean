import EcmaPress.Proofs.Alignment
import EcmaPress.Tree.Relabel

/-!
# The pieces of a relabelled tree

The pieces of a tree with new labels are the pieces of the tree with the same labels. So trees
that are equal up to places write the same texts.
-/

namespace EcmaPress

namespace Piece

/-- A piece with new labels. -/
def relabel (r : Relabeling) : Piece → Piece
  | .token text origin shape => .token text (origin.map r.place) shape
  | .name id => .name (r.identifier id)
  | p => p

variable {r : Relabeling}

@[simp] theorem relabel_sign (s : String) : (sign s).relabel r = sign s := rfl

@[simp] theorem relabel_mapped (s : String) (pos : Position) :
    (mapped s pos).relabel r = mapped s (r.place pos) := rfl

@[simp] theorem relabel_token (s : String) (origin : Option Position) (shape : Shape) :
    (Piece.token s origin shape).relabel r = .token s (origin.map r.place) shape := rfl

@[simp] theorem relabel_name (id : Identifier) :
    (Piece.name id).relabel r = .name (r.identifier id) := rfl

@[simp] theorem relabel_terminator (last : Bool) :
    (Piece.terminator last).relabel r = .terminator last := rfl

@[simp] theorem relabel_space : Piece.space.relabel r = .space := rfl

@[simp] theorem relabel_newline : Piece.newline.relabel r = .newline := rfl

@[simp] theorem relabel_indent : Piece.indent.relabel r = .indent := rfl

@[simp] theorem relabel_dedent : Piece.dedent.relabel r = .dedent := rfl

@[simp] theorem map_comma (isLast : Bool) : (comma isLast).map (relabel r) = comma isLast := by
  cases isLast <;> rfl

@[simp] theorem map_inParens (ps : List Piece) :
    (inParens ps).map (relabel r) = inParens (ps.map (relabel r)) := by
  simp [inParens]

@[simp] theorem map_inBraces (ps : List Piece) :
    (inBraces ps).map (relabel r) = inBraces (ps.map (relabel r)) := by
  cases ps <;> simp [inBraces]

@[simp] theorem map_parameters (ids : List Identifier) :
    (parameters ids).map (relabel r) = parameters (ids.map r.identifier) := by
  induction ids with
  | nil => rfl
  | cons id rest ih => simp [parameters, ih]

end Piece

open Piece

variable (r : Relabeling)

@[simp] theorem Statement.isBlock_relabel (s : Statement) :
    (s.relabel r).isBlock = s.isBlock := by
  cases s with
  | ifElse _ _ _ alternate => cases alternate <;> rfl
  | returnValue _ argument => cases argument <;> rfl
  | _ => rfl

@[simp] theorem Statement.isIf_relabel (s : Statement) : (s.relabel r).isIf = s.isIf := by
  cases s with
  | ifElse _ _ _ alternate => cases alternate <;> rfl
  | returnValue _ argument => cases argument <;> rfl
  | _ => rfl

@[simp] theorem Statement.afterBody_relabel (s : Statement) :
    (s.relabel r).afterBody = s.afterBody := by
  simp [Statement.afterBody]

theorem Statement.map_afterBody (s : Statement) : s.afterBody.relabel r = s.afterBody := by
  unfold Statement.afterBody
  split <;> rfl

theorem Statement.map_bodyPieces (s : Statement) (ps : List Piece) :
    (s.bodyPieces ps).map (Piece.relabel r) =
      (s.relabel r).bodyPieces (ps.map (Piece.relabel r)) := by
  cases s with
  | ifElse _ _ _ alternate => cases alternate <;> simp [Statement.bodyPieces, Statement.relabel]
  | returnValue _ argument => cases argument <;> simp [Statement.bodyPieces, Statement.relabel]
  | _ => simp [Statement.bodyPieces, Statement.relabel]

theorem isEmpty_relabelExpressions (xs : List Expression) :
    (relabelExpressions r xs).isEmpty = xs.isEmpty := by
  cases xs <;> rfl

theorem isEmpty_relabelElements (xs : List Element) :
    (relabelElements r xs).isEmpty = xs.isEmpty := by
  cases xs <;> rfl

theorem isEmpty_relabelProperties (xs : List Property) :
    (relabelProperties r xs).isEmpty = xs.isEmpty := by
  cases xs <;> rfl

theorem isEmpty_relabelDeclarators (xs : List Declarator) :
    (relabelDeclarators r xs).isEmpty = xs.isEmpty := by
  cases xs <;> rfl

theorem isEmpty_relabelClauses (xs : List SwitchClause) :
    (relabelClauses r xs).isEmpty = xs.isEmpty := by
  cases xs <;> rfl

theorem isEmpty_relabelStatements (xs : List Statement) :
    (relabelStatements r xs).isEmpty = xs.isEmpty := by
  cases xs <;> rfl

/-- The pieces of a part of a tree that may be missing. -/
def piecesOfPart {α : Type} (pieces : α → List Piece) : Option α → List Piece
  | none => []
  | some x => pieces x

theorem piecesOfPart_relabel {α : Type} (pieces : α → List Piece) (relabel : α → α)
    {part : Option α}
    (h : ∀ x, part = some x → pieces (relabel x) = (pieces x).map (Piece.relabel r)) :
    piecesOfPart pieces (part.map relabel) =
      (piecesOfPart pieces part).map (Piece.relabel r) := by
  cases part with
  | none => rfl
  | some x => exact h x rfl

theorem Statement.pieces_forLoop (last : Bool) (pos : Position) (init : Option ForInit)
    (test update : Option Expression) (body : Statement) :
    (Statement.forLoop pos init test update body).pieces last =
      mapped "for" pos :: space ::
        inParens (piecesOfPart ForInit.pieces init ++ sign ";" ::
          piecesOfPart (fun x => space :: Expression.pieces x) test ++ sign ";" ::
          piecesOfPart (fun x => space :: Expression.pieces x) update) ++
        body.bodyPieces (body.pieces last) := by
  cases init <;> cases test <;> cases update <;>
    simp [Statement.pieces, piecesOfPart, inParens]

theorem Statement.relabel_forLoop (pos : Position) (init : Option ForInit)
    (test update : Option Expression) (body : Statement) :
    (Statement.forLoop pos init test update body).relabel r =
      .forLoop (r.place pos) (init.map (ForInit.relabel r)) (test.map (Expression.relabel r))
        (update.map (Expression.relabel r)) (body.relabel r) := by
  cases init <;> cases test <;> cases update <;> simp [Statement.relabel]

/-- The pieces of what is done behind a `try` statement in any case. -/
def lastPartPieces (finalizer : List Statement) : List Piece :=
  [space, sign "finally", space] ++ inBraces (statementsPieces true finalizer)

theorem Statement.pieces_tryCatch (last : Bool) (pos : Position) (body : List Statement)
    (handler : Option CatchClause) (finalizer : Option (List Statement)) :
    (Statement.tryCatch pos body handler finalizer).pieces last =
      mapped "try" pos :: space :: inBraces (statementsPieces true body) ++
        piecesOfPart CatchClause.pieces handler ++
        piecesOfPart lastPartPieces finalizer := by
  cases handler <;> cases finalizer <;>
    simp [Statement.pieces, piecesOfPart, lastPartPieces]

theorem Statement.relabel_tryCatch (pos : Position) (body : List Statement)
    (handler : Option CatchClause) (finalizer : Option (List Statement)) :
    (Statement.tryCatch pos body handler finalizer).relabel r =
      .tryCatch (r.place pos) (relabelStatements r body) (handler.map (CatchClause.relabel r))
        (finalizer.map (relabelStatements r)) := by
  cases handler <;> cases finalizer <;> simp [Statement.relabel]

mutual

theorem Expression.pieces_relabel (x : Expression) :
    (x.relabel r).pieces = x.pieces.map (Piece.relabel r) := by
  cases x with
  | thisValue | identifier => rfl
  | literal => rfl
  | array _ elements => simp [Expression.relabel, Expression.pieces, elementsPieces_relabel elements]
  | object _ properties =>
    rw [Expression.relabel, Expression.pieces, Expression.pieces, isEmpty_relabelProperties, propertiesPieces_relabel properties]
    split <;> simp
  | function function => simp [Expression.relabel, Expression.pieces, function.pieces_relabel]
  | paren _ inside => simp [Expression.relabel, Expression.pieces, inside.pieces_relabel]
  | unary op _ argument =>
    cases hword : op.isWord <;> simp [Expression.relabel, Expression.pieces, argument.pieces_relabel, hword]
  | preUpdate _ _ argument => simp [Expression.relabel, Expression.pieces, argument.pieces_relabel]
  | postUpdate _ _ argument => simp [Expression.relabel, Expression.pieces, argument.pieces_relabel]
  | binary _ _ left right => simp [Expression.relabel, Expression.pieces, left.pieces_relabel, right.pieces_relabel]
  | assign _ _ left right => simp [Expression.relabel, Expression.pieces, left.pieces_relabel, right.pieces_relabel]
  | conditional test consequent alternate =>
    simp [Expression.relabel, Expression.pieces, test.pieces_relabel, consequent.pieces_relabel,
      alternate.pieces_relabel]
  | call callee arguments =>
    simp [Expression.relabel, Expression.pieces, callee.pieces_relabel, expressionsPieces_relabel arguments]
  | newBare _ callee => simp [Expression.relabel, Expression.pieces, callee.pieces_relabel]
  | newCall _ callee arguments =>
    simp [Expression.relabel, Expression.pieces, callee.pieces_relabel, expressionsPieces_relabel arguments]
  | member object property =>
    simp [Expression.relabel, Expression.pieces, object.pieces_relabel, Relabeling.label]
  | index object property =>
    simp [Expression.relabel, Expression.pieces, object.pieces_relabel, property.pieces_relabel]
  | sequence expressions => simp [Expression.relabel, Expression.pieces, expressionsPieces_relabel expressions]

theorem expressionsPieces_relabel (xs : List Expression) :
    expressionsPieces (relabelExpressions r xs) = (expressionsPieces xs).map (Piece.relabel r) := by
  cases xs with
  | nil => rfl
  | cons x rest =>
    simp [relabelExpressions, expressionsPieces, x.pieces_relabel, expressionsPieces_relabel rest,
      isEmpty_relabelExpressions]

theorem Element.pieces_relabel (x : Element) :
    (x.relabel r).pieces = x.pieces.map (Piece.relabel r) := by
  cases x with
  | hole => rfl
  | value value => simp [Element.relabel, Element.pieces, value.pieces_relabel]

theorem elementsPieces_relabel (xs : List Element) :
    elementsPieces (relabelElements r xs) = (elementsPieces xs).map (Piece.relabel r) := by
  cases xs with
  | nil => rfl
  | cons x rest =>
    have hx := x.pieces_relabel
    have hrest := elementsPieces_relabel rest
    cases x with
    | hole =>
      cases rest with
      | nil => rfl
      | cons y rest =>
        simp only [relabelElements, Element.relabel] at hrest ⊢
        simp [elementsPieces, Element.pieces, hrest]
    | value value =>
      simp only [relabelElements, Element.relabel] at hx ⊢
      simp [elementsPieces, hx, hrest, isEmpty_relabelElements]

theorem Property.pieces_relabel (x : Property) :
    (x.relabel r).pieces = x.pieces.map (Piece.relabel r) := by
  cases x with
  | init key value => simp [Property.relabel, Property.pieces, value.pieces_relabel, Relabeling.key]
  | accessor kind key function =>
    cases function with
    | mk pos id params body =>
      simp [Property.relabel, Function.relabel, Property.pieces, statementsPieces_relabel true body, Relabeling.key]

theorem propertiesPieces_relabel (xs : List Property) :
    propertiesPieces (relabelProperties r xs) = (propertiesPieces xs).map (Piece.relabel r) := by
  cases xs with
  | nil => rfl
  | cons x rest =>
    rw [relabelProperties, propertiesPieces, propertiesPieces, isEmpty_relabelProperties,
      x.pieces_relabel, propertiesPieces_relabel rest]
    split <;> simp

theorem Function.pieces_relabel (x : Function) :
    (x.relabel r).pieces = x.pieces.map (Piece.relabel r) := by
  cases x with
  | mk pos id params body =>
    cases id <;> simp [Function.relabel, Function.pieces, statementsPieces_relabel true body]

theorem Declarator.pieces_relabel (x : Declarator) :
    (x.relabel r).pieces = x.pieces.map (Piece.relabel r) := by
  cases x with
  | bare => rfl
  | init id pos value => simp [Declarator.relabel, Declarator.pieces, value.pieces_relabel]

theorem declaratorsPieces_relabel (xs : List Declarator) :
    declaratorsPieces (relabelDeclarators r xs) = (declaratorsPieces xs).map (Piece.relabel r) := by
  cases xs with
  | nil => rfl
  | cons x rest =>
    simp [relabelDeclarators, declaratorsPieces, x.pieces_relabel, declaratorsPieces_relabel rest,
      isEmpty_relabelDeclarators]

theorem ForInit.pieces_relabel (x : ForInit) :
    (x.relabel r).pieces = x.pieces.map (Piece.relabel r) := by
  cases x with
  | declarations _ declarators =>
    simp [ForInit.relabel, ForInit.pieces, declaratorsPieces_relabel declarators]
  | expression expression => simp [ForInit.relabel, ForInit.pieces, expression.pieces_relabel]

theorem SwitchClause.pieces_relabel (last : Bool) (x : SwitchClause) :
    (x.relabel r).pieces last = (x.pieces last).map (Piece.relabel r) := by
  cases x with
  | mk test body =>
    cases test with
    | none => simp [SwitchClause.relabel, SwitchClause.pieces, statementsPieces_relabel last body]
    | some test =>
      simp [SwitchClause.relabel, SwitchClause.pieces, test.pieces_relabel, statementsPieces_relabel last body]

theorem clausesPieces_relabel (xs : List SwitchClause) :
    clausesPieces (relabelClauses r xs) = (clausesPieces xs).map (Piece.relabel r) := by
  cases xs with
  | nil => rfl
  | cons x rest =>
    simp [relabelClauses, clausesPieces, x.pieces_relabel, clausesPieces_relabel rest,
      isEmpty_relabelClauses]

theorem CatchClause.pieces_relabel (x : CatchClause) :
    (x.relabel r).pieces = x.pieces.map (Piece.relabel r) := by
  cases x with
  | mk param body => simp [CatchClause.relabel, CatchClause.pieces, statementsPieces_relabel true body]

theorem Statement.pieces_relabel (last : Bool) (s : Statement) :
    (s.relabel r).pieces last = (s.pieces last).map (Piece.relabel r) := by
  cases s with
  | block body => simp [Statement.relabel, Statement.pieces, statementsPieces_relabel true body]
  | declarations _ declarators =>
    simp [Statement.relabel, Statement.pieces, declaratorsPieces_relabel declarators]
  | empty => rfl
  | expression expression => simp [Statement.relabel, Statement.pieces, expression.pieces_relabel]
  | ifElse _ test consequent alternate =>
    cases alternate with
    | none =>
      simp [Statement.relabel, Statement.pieces, test.pieces_relabel, Statement.map_bodyPieces,
        consequent.pieces_relabel last]
    | some alternate =>
      simp only [Statement.relabel, Statement.pieces, test.pieces_relabel, consequent.pieces_relabel false,
        alternate.pieces_relabel last, Statement.isIf_relabel, Statement.afterBody_relabel]
      split <;> simp [Statement.map_bodyPieces, Statement.map_afterBody]
  | doWhile _ body test =>
    simp [Statement.relabel, Statement.pieces, test.pieces_relabel, Statement.map_bodyPieces,
      body.pieces_relabel false, Statement.map_afterBody]
  | whileDo _ test body =>
    simp [Statement.relabel, Statement.pieces, test.pieces_relabel, Statement.map_bodyPieces,
      body.pieces_relabel last]
  | forLoop _ init test update body =>
    have hinit : ∀ x, init = some x → (x.relabel r).pieces = x.pieces.map (Piece.relabel r) := by
      cases init with
      | none => exact fun x hx => nomatch hx
      | some init =>
        rintro _ ⟨⟩
        exact init.pieces_relabel
    have htest : ∀ x, test = some x → space :: (x.relabel r).pieces =
        (space :: x.pieces).map (Piece.relabel r) := by
      cases test with
      | none => exact fun x hx => nomatch hx
      | some test =>
        rintro _ ⟨⟩
        simp [test.pieces_relabel]
    have hupdate : ∀ x, update = some x → space :: (x.relabel r).pieces =
        (space :: x.pieces).map (Piece.relabel r) := by
      cases update with
      | none => exact fun x hx => nomatch hx
      | some update =>
        rintro _ ⟨⟩
        simp [update.pieces_relabel]
    simp [Statement.relabel_forLoop, Statement.pieces_forLoop, Statement.map_bodyPieces,
      piecesOfPart_relabel r ForInit.pieces _ hinit, body.pieces_relabel last,
      piecesOfPart_relabel r (fun x => space :: Expression.pieces x) _ htest,
      piecesOfPart_relabel r (fun x => space :: Expression.pieces x) _ hupdate]
  | forIn _ left right body =>
    simp [Statement.relabel, Statement.pieces, left.pieces_relabel, right.pieces_relabel, Statement.map_bodyPieces,
      body.pieces_relabel last]
  | jump _ _ label => cases label <;> simp [Statement.relabel, Statement.pieces, Relabeling.label]
  | returnValue _ argument =>
    cases argument with
    | none => rfl
    | some argument => simp [Statement.relabel, Statement.pieces, argument.pieces_relabel]
  | withObject _ object body =>
    simp [Statement.relabel, Statement.pieces, object.pieces_relabel, Statement.map_bodyPieces,
      body.pieces_relabel last]
  | switch _ discriminant clauses =>
    rw [Statement.relabel, Statement.pieces, Statement.pieces, isEmpty_relabelClauses, clausesPieces_relabel clauses,
      discriminant.pieces_relabel]
    split <;> simp
  | labeled label body => simp [Statement.relabel, Statement.pieces, body.pieces_relabel last, Relabeling.label]
  | throwValue _ argument => simp [Statement.relabel, Statement.pieces, argument.pieces_relabel]
  | tryCatch _ body handler finalizer =>
    have hhandler : ∀ x, handler = some x →
        (x.relabel r).pieces = x.pieces.map (Piece.relabel r) := by
      cases handler with
      | none => exact fun x hx => nomatch hx
      | some handler =>
        rintro _ ⟨⟩
        exact handler.pieces_relabel
    have hfinalizer : ∀ xs, finalizer = some xs →
        lastPartPieces (relabelStatements r xs) = (lastPartPieces xs).map (Piece.relabel r) := by
      cases finalizer with
      | none => exact fun xs hxs => nomatch hxs
      | some finalizer =>
        rintro _ ⟨⟩
        simp [lastPartPieces, statementsPieces_relabel true finalizer]
    simp [Statement.relabel_tryCatch, Statement.pieces_tryCatch, statementsPieces_relabel true body,
      piecesOfPart_relabel r CatchClause.pieces _ hhandler,
      piecesOfPart_relabel r lastPartPieces _ hfinalizer]
  | debugger => rfl
  | function function => simp [Statement.relabel, Statement.pieces, function.pieces_relabel]

theorem statementsPieces_relabel (last : Bool) (xs : List Statement) :
    statementsPieces last (relabelStatements r xs) =
      (statementsPieces last xs).map (Piece.relabel r) := by
  cases xs with
  | nil => rfl
  | cons x rest =>
    simp [relabelStatements, statementsPieces, x.pieces_relabel, statementsPieces_relabel last rest,
      isEmpty_relabelStatements]

end

/-- The pieces of a program with new labels. -/
theorem Program.pieces_relabel (program : Program) :
    Program.pieces ⟨relabelStatements r program.body⟩ =
      program.pieces.map (Piece.relabel r) := by
  have hgo : ∀ xs, Program.pieces.go (relabelStatements r xs) =
      (Program.pieces.go xs).map (Piece.relabel r) := by
    intro xs
    induction xs with
    | nil => rfl
    | cons x rest ih =>
      simp [relabelStatements, Program.pieces.go, x.pieces_relabel, ih, isEmpty_relabelStatements]
  exact hgo program.body

end EcmaPress

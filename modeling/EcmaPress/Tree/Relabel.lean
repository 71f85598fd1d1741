import EcmaPress.Tree

/-!
# Relabelled trees

A tree with other names and other places, and otherwise the same. A relabelling may choose a new
name for every identifier that binds a name or refers to one; labels, the names of members and
the keys of properties stay what they are.
-/

namespace EcmaPress

/-- New names for identifiers and new places for everything that has a place. -/
structure Relabeling where
  name : Identifier → String
  place : Position → Position

namespace Relabeling

/-- An identifier with its new name. -/
def identifier (r : Relabeling) (id : Identifier) : Identifier :=
  ⟨r.name id, r.place id.pos⟩

/-- A label or the name of a member, which keeps its name. -/
def label (r : Relabeling) (id : Identifier) : Identifier :=
  ⟨id.name, r.place id.pos⟩

/-- A key, which stays as it is written. -/
def key (r : Relabeling) (key : PropertyKey) : PropertyKey :=
  ⟨key.raw, r.place key.pos⟩

/-- New names at the same places. -/
def ofNames (name : Identifier → String) : Relabeling :=
  ⟨name, fun pos => pos⟩

/-- New names, with all places forgotten. -/
def unplaced (name : Identifier → String) : Relabeling :=
  ⟨name, fun _ => .start⟩

end Relabeling

variable (r : Relabeling)

mutual

/-- An expression with new labels. -/
def Expression.relabel : Expression → Expression
  | .thisValue pos => .thisValue (r.place pos)
  | .identifier id => .identifier (r.identifier id)
  | .literal kind raw pos => .literal kind raw (r.place pos)
  | .array pos elements => .array (r.place pos) (relabelElements elements)
  | .object pos properties => .object (r.place pos) (relabelProperties properties)
  | .function function => .function function.relabel
  | .paren pos inside => .paren (r.place pos) inside.relabel
  | .unary op pos argument => .unary op (r.place pos) argument.relabel
  | .preUpdate op pos argument => .preUpdate op (r.place pos) argument.relabel
  | .postUpdate op pos argument => .postUpdate op (r.place pos) argument.relabel
  | .binary op pos left right => .binary op (r.place pos) left.relabel right.relabel
  | .assign op pos left right => .assign op (r.place pos) left.relabel right.relabel
  | .conditional test consequent alternate =>
    .conditional test.relabel consequent.relabel alternate.relabel
  | .call callee arguments => .call callee.relabel (relabelExpressions arguments)
  | .newBare pos callee => .newBare (r.place pos) callee.relabel
  | .newCall pos callee arguments =>
    .newCall (r.place pos) callee.relabel (relabelExpressions arguments)
  | .member object property => .member object.relabel (r.label property)
  | .index object property => .index object.relabel property.relabel
  | .sequence expressions => .sequence (relabelExpressions expressions)

/-- Expressions with new labels. -/
def relabelExpressions : List Expression → List Expression
  | [] => []
  | e :: rest => e.relabel :: relabelExpressions rest

/-- An element with new labels. -/
def Element.relabel : Element → Element
  | .hole => .hole
  | .value value => .value value.relabel

/-- Elements with new labels. -/
def relabelElements : List Element → List Element
  | [] => []
  | e :: rest => e.relabel :: relabelElements rest

/-- A property with new labels. -/
def Property.relabel : Property → Property
  | .init key value => .init (r.key key) value.relabel
  | .accessor kind key function => .accessor kind (r.key key) function.relabel

/-- Properties with new labels. -/
def relabelProperties : List Property → List Property
  | [] => []
  | p :: rest => p.relabel :: relabelProperties rest

/-- A function with new labels. -/
def Function.relabel : Function → Function
  | .mk pos id params body =>
    .mk (r.place pos) (id.map r.identifier) (params.map r.identifier) (relabelStatements body)

/-- A variable with new labels. -/
def Declarator.relabel : Declarator → Declarator
  | .bare id => .bare (r.identifier id)
  | .init id pos value => .init (r.identifier id) (r.place pos) value.relabel

/-- Variables with new labels. -/
def relabelDeclarators : List Declarator → List Declarator
  | [] => []
  | d :: rest => d.relabel :: relabelDeclarators rest

/-- The first part of a `for` statement with new labels. -/
def ForInit.relabel : ForInit → ForInit
  | .declarations pos declarators => .declarations (r.place pos) (relabelDeclarators declarators)
  | .expression expression => .expression expression.relabel

/-- A clause of `switch` with new labels. -/
def SwitchClause.relabel : SwitchClause → SwitchClause
  | .mk none body => .mk none (relabelStatements body)
  | .mk (some test) body => .mk (some test.relabel) (relabelStatements body)

/-- Clauses of `switch` with new labels. -/
def relabelClauses : List SwitchClause → List SwitchClause
  | [] => []
  | clause :: rest => clause.relabel :: relabelClauses rest

/-- The handler of `try` with new labels. -/
def CatchClause.relabel : CatchClause → CatchClause
  | .mk param body => .mk (r.identifier param) (relabelStatements body)

/-- A statement with new labels. -/
def Statement.relabel : Statement → Statement
  | .block body => .block (relabelStatements body)
  | .declarations pos declarators =>
    .declarations (r.place pos) (relabelDeclarators declarators)
  | .empty => .empty
  | .expression expression => .expression expression.relabel
  | .ifElse pos test consequent none =>
    .ifElse (r.place pos) test.relabel consequent.relabel none
  | .ifElse pos test consequent (some alternate) =>
    .ifElse (r.place pos) test.relabel consequent.relabel (some alternate.relabel)
  | .doWhile pos body test => .doWhile (r.place pos) body.relabel test.relabel
  | .whileDo pos test body => .whileDo (r.place pos) test.relabel body.relabel
  | .forLoop pos init test update body =>
    .forLoop (r.place pos)
      (match init with
        | none => none
        | some init => some init.relabel)
      (match test with
        | none => none
        | some test => some test.relabel)
      (match update with
        | none => none
        | some update => some update.relabel)
      body.relabel
  | .forIn pos left right body =>
    .forIn (r.place pos) left.relabel right.relabel body.relabel
  | .jump kind pos label => .jump kind (r.place pos) (label.map r.label)
  | .returnValue pos none => .returnValue (r.place pos) none
  | .returnValue pos (some argument) => .returnValue (r.place pos) (some argument.relabel)
  | .withObject pos object body => .withObject (r.place pos) object.relabel body.relabel
  | .switch pos discriminant clauses =>
    .switch (r.place pos) discriminant.relabel (relabelClauses clauses)
  | .labeled label body => .labeled (r.label label) body.relabel
  | .throwValue pos argument => .throwValue (r.place pos) argument.relabel
  | .tryCatch pos body handler finalizer =>
    .tryCatch (r.place pos) (relabelStatements body)
      (match handler with
        | none => none
        | some handler => some handler.relabel)
      (match finalizer with
        | none => none
        | some finalizer => some (relabelStatements finalizer))
  | .debugger pos => .debugger (r.place pos)
  | .function function => .function function.relabel

/-- Statements with new labels. -/
def relabelStatements : List Statement → List Statement
  | [] => []
  | s :: rest => s.relabel :: relabelStatements rest

end

theorem relabelExpressions_eq (xs : List Expression) :
    relabelExpressions r xs = xs.map (Expression.relabel r) := by
  induction xs with
  | nil => rfl
  | cons x rest ih => rw [relabelExpressions, ih, List.map_cons]

theorem relabelElements_eq (xs : List Element) :
    relabelElements r xs = xs.map (Element.relabel r) := by
  induction xs with
  | nil => rfl
  | cons x rest ih => rw [relabelElements, ih, List.map_cons]

theorem relabelProperties_eq (xs : List Property) :
    relabelProperties r xs = xs.map (Property.relabel r) := by
  induction xs with
  | nil => rfl
  | cons x rest ih => rw [relabelProperties, ih, List.map_cons]

theorem relabelDeclarators_eq (xs : List Declarator) :
    relabelDeclarators r xs = xs.map (Declarator.relabel r) := by
  induction xs with
  | nil => rfl
  | cons x rest ih => rw [relabelDeclarators, ih, List.map_cons]

theorem relabelClauses_eq (xs : List SwitchClause) :
    relabelClauses r xs = xs.map (SwitchClause.relabel r) := by
  induction xs with
  | nil => rfl
  | cons x rest ih => rw [relabelClauses, ih, List.map_cons]

theorem relabelStatements_eq (xs : List Statement) :
    relabelStatements r xs = xs.map (Statement.relabel r) := by
  induction xs with
  | nil => rfl
  | cons x rest ih => rw [relabelStatements, ih, List.map_cons]

namespace Program

/-- A program with new names. -/
def rename (program : Program) (name : Identifier → String) : Program :=
  ⟨relabelStatements (.ofNames name) program.body⟩

/-- A program without its places. -/
def unplaced (program : Program) : Program :=
  ⟨relabelStatements (.unplaced Identifier.name) program.body⟩

end Program
end EcmaPress

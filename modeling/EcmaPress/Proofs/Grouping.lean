import EcmaPress.Tree

/-!
# Trees that are grouped as their text is

Which trees the binary operators, calls and other chains of a text may make, when all parentheses
are nodes: a looser operator never stands below a tighter one, operators of a level lean to the
left, and `in` stays out of the first part of `for`.
-/

namespace EcmaPress

/-- Whether an expression may stand behind a unary operator: it is no operation between others. -/
def Expression.isOperand : Expression → Bool
  | .binary .. | .conditional .. | .assign .. | .sequence _ => false
  | _ => true

/-- Whether an expression holds together beside an operator, if it has to bind at least as tightly
as `least`. -/
def Expression.binds (least : Nat) : Expression → Bool
  | .binary op .. => least ≤ op.precedence
  | x => x.isOperand

/-- Whether an expression may stand in front of a question mark. -/
def Expression.isTest : Expression → Bool
  | .conditional .. | .assign .. | .sequence _ => false
  | _ => true

/-- Whether an expression has no operators at all. -/
def Expression.isPrimary : Expression → Bool
  | .thisValue _ | .identifier _ | .literal .. => true
  | .array .. | .object .. | .function _ | .paren .. => true
  | _ => false

/-- Whether an expression may be called or have its members taken. If it begins with `new`, it has
to have a list of arguments. -/
def Expression.isCallee : Expression → Bool
  | .call .. | .newCall .. | .member .. | .index .. => true
  | x => x.isPrimary

/-- Whether a call stands on the chain of objects whose members are taken. -/
def Expression.isCalled : Expression → Bool
  | .call .. => true
  | .member base _ | .index base _ => base.isCalled
  | _ => false

mutual

/-- Whether the operator `in` occurs in an expression without brackets around it: outside of
parentheses, brackets, braces, arguments, functions and the middle of a condition. -/
def Expression.exposesIn : Expression → Bool
  | .thisValue _ | .identifier _ | .literal .. => false
  | .array .. | .object .. | .function _ | .paren .. => false
  | .unary _ _ argument | .preUpdate _ _ argument | .postUpdate _ _ argument => argument.exposesIn
  | .binary op _ left right => op == .isIn || left.exposesIn || right.exposesIn
  | .assign _ _ left right => left.exposesIn || right.exposesIn
  | .conditional test _ alternate => test.exposesIn || alternate.exposesIn
  | .call callee _ | .newBare _ callee | .newCall _ callee _ => callee.exposesIn
  | .member object _ | .index object _ => object.exposesIn
  | .sequence expressions => expressionsExposeIn expressions

/-- Whether the operator `in` occurs in one of some expressions without brackets around it. -/
def expressionsExposeIn : List Expression → Bool
  | [] => false
  | x :: rest => x.exposesIn || expressionsExposeIn rest

end

/-- Whether the first value of a variable has the operator `in` without brackets around it. -/
def Declarator.exposesIn : Declarator → Bool
  | .bare _ => false
  | .init _ _ value => value.exposesIn

/-- Whether the first part of `for` has the operator `in` without brackets around it. -/
def ForInit.exposesIn : ForInit → Bool
  | .declarations _ declarators => declarators.any Declarator.exposesIn
  | .expression x => x.exposesIn

mutual

/-- Whether an expression is grouped as its text is: the left operand of a binary operator binds at
least as tightly as the operator and the right one more tightly, the other operators stand around
what they may stand around, and so on within. -/
def Expression.isGrouped : Expression → Bool
  | .thisValue _ | .identifier _ | .literal .. => true
  | .array _ elements => elementsGrouped elements
  | .object _ properties => propertiesGrouped properties
  | .function function => function.isGrouped
  | .paren _ inside => inside.isGrouped
  | .unary _ _ argument => argument.isOperand && argument.isGrouped
  | .preUpdate _ _ argument | .postUpdate _ _ argument =>
    argument.isOperand && argument.isReference && argument.isGrouped
  | .binary op _ left right =>
    left.binds op.precedence && right.binds (op.precedence + 1) && left.isGrouped && right.isGrouped
  | .assign _ _ left right => left.isReference && left.isGrouped && right.isGrouped
  | .conditional test consequent alternate =>
    test.isTest && test.isGrouped && consequent.isGrouped && alternate.isGrouped
  | .call callee arguments => callee.isCallee && callee.isGrouped && expressionsGrouped arguments
  | .newBare _ callee => !callee.isCalled && callee.isGrouped
  | .newCall _ callee arguments =>
    !callee.isCalled && callee.isGrouped && expressionsGrouped arguments
  | .member object _ => object.isCallee && object.isGrouped
  | .index object property => object.isCallee && object.isGrouped && property.isGrouped
  | .sequence expressions => expressionsGrouped expressions

/-- Whether expressions are grouped as their text is. -/
def expressionsGrouped : List Expression → Bool
  | [] => true
  | x :: rest => x.isGrouped && expressionsGrouped rest

/-- Whether an element of an array is grouped as its text is. -/
def Element.isGrouped : Element → Bool
  | .hole => true
  | .value value => value.isGrouped

/-- Whether the elements of an array are grouped as their text is. -/
def elementsGrouped : List Element → Bool
  | [] => true
  | x :: rest => x.isGrouped && elementsGrouped rest

/-- Whether a property of an object is grouped as its text is. -/
def Property.isGrouped : Property → Bool
  | .init _ value => value.isGrouped
  | .accessor _ _ function => function.isGrouped

/-- Whether the properties of an object are grouped as their text is. -/
def propertiesGrouped : List Property → Bool
  | [] => true
  | p :: rest => p.isGrouped && propertiesGrouped rest

/-- Whether a function is grouped as its text is. -/
def Function.isGrouped : Function → Bool
  | .mk _ _ _ body => statementsGrouped body

/-- Whether a variable with its first value is grouped as its text is. -/
def Declarator.isGrouped : Declarator → Bool
  | .bare _ => true
  | .init _ _ value => value.isGrouped

/-- Whether variables are grouped as their text is. -/
def declaratorsGrouped : List Declarator → Bool
  | [] => true
  | d :: rest => d.isGrouped && declaratorsGrouped rest

/-- Whether the first part of `for` is grouped as its text is. -/
def ForInit.isGrouped : ForInit → Bool
  | .declarations _ declarators => declaratorsGrouped declarators
  | .expression expression => expression.isGrouped

/-- Whether a clause of `switch` is grouped as its text is. -/
def SwitchClause.isGrouped : SwitchClause → Bool
  | .mk test body =>
    (match test with
      | none => true
      | some test => test.isGrouped) && statementsGrouped body

/-- Whether the clauses of `switch` are grouped as their text is. -/
def clausesGrouped : List SwitchClause → Bool
  | [] => true
  | clause :: rest => clause.isGrouped && clausesGrouped rest

/-- Whether the handler of `try` is grouped as its text is. -/
def CatchClause.isGrouped : CatchClause → Bool
  | .mk _ body => statementsGrouped body

/-- Whether a statement is grouped as its text is. The first part of `for` has no `in` that could
be taken for the sign between its parts. -/
def Statement.isGrouped : Statement → Bool
  | .block body => statementsGrouped body
  | .declarations _ declarators => declaratorsGrouped declarators
  | .empty | .debugger _ | .jump .. => true
  | .expression expression => expression.isGrouped
  | .ifElse _ test consequent alternate =>
    test.isGrouped && consequent.isGrouped &&
      match alternate with
      | none => true
      | some alternate => alternate.isGrouped
  | .doWhile _ body test | .whileDo _ test body => body.isGrouped && test.isGrouped
  | .forLoop _ init test update body =>
    (match init with
      | none => true
      | some init => !init.exposesIn && init.isGrouped) &&
      (match test with
        | none => true
        | some test => test.isGrouped) &&
      (match update with
        | none => true
        | some update => update.isGrouped) &&
      body.isGrouped
  | .forIn _ left right body =>
    !left.exposesIn && left.isGrouped && right.isGrouped && body.isGrouped
  | .returnValue _ argument =>
    match argument with
    | none => true
    | some argument => argument.isGrouped
  | .withObject _ object body => object.isGrouped && body.isGrouped
  | .switch _ discriminant clauses => discriminant.isGrouped && clausesGrouped clauses
  | .labeled _ body => body.isGrouped
  | .throwValue _ argument => argument.isGrouped
  | .tryCatch _ body handler finalizer =>
    statementsGrouped body &&
      (match handler with
        | none => true
        | some handler => handler.isGrouped) &&
      (match finalizer with
        | none => true
        | some finalizer => statementsGrouped finalizer)
  | .function function => function.isGrouped

/-- Whether statements are grouped as their text is. -/
def statementsGrouped : List Statement → Bool
  | [] => true
  | s :: rest => s.isGrouped && statementsGrouped rest

end

/-- Whether a program is grouped as its text is. -/
def Program.isGrouped (program : Program) : Bool :=
  statementsGrouped program.body

/-- A tree that no text has: the sum would have to be in parentheses. -/
example (pos : Position) (x : Identifier) : (Expression.binary .multiply pos
    (.binary .add pos (.identifier x) (.identifier x)) (.identifier x)).isGrouped = false :=
  rfl

/-! ### Lists and parts -/

theorem expressionsExposeIn_eq_false {xs : List Expression} :
    expressionsExposeIn xs = false ↔ ∀ x ∈ xs, x.exposesIn = false := by
  induction xs with
  | nil => simp [expressionsExposeIn]
  | cons x xs ih => simp [expressionsExposeIn, ih]

/-- A check of lists that goes through them item by item is a check of every item. -/
theorem forall_of_cons {α : Type} {check : List α → Bool} {checkItem : α → Bool}
    (hnil : check [] = true) (hcons : ∀ x xs, check (x :: xs) = (checkItem x && check xs))
    {xs : List α} : check xs ↔ ∀ x ∈ xs, checkItem x := by
  induction xs with
  | nil => simp [hnil]
  | cons x xs ih => simp [hcons, ih]

theorem expressionsGrouped_iff {xs : List Expression} :
    expressionsGrouped xs ↔ ∀ x ∈ xs, x.isGrouped :=
  forall_of_cons rfl fun _ _ => rfl

theorem elementsGrouped_iff {xs : List Element} : elementsGrouped xs ↔ ∀ x ∈ xs, x.isGrouped :=
  forall_of_cons rfl fun _ _ => rfl

theorem propertiesGrouped_iff {xs : List Property} :
    propertiesGrouped xs ↔ ∀ x ∈ xs, x.isGrouped :=
  forall_of_cons rfl fun _ _ => rfl

theorem declaratorsGrouped_iff {xs : List Declarator} :
    declaratorsGrouped xs ↔ ∀ x ∈ xs, x.isGrouped :=
  forall_of_cons rfl fun _ _ => rfl

theorem clausesGrouped_iff {xs : List SwitchClause} :
    clausesGrouped xs ↔ ∀ x ∈ xs, x.isGrouped :=
  forall_of_cons rfl fun _ _ => rfl

theorem statementsGrouped_iff {xs : List Statement} :
    statementsGrouped xs ↔ ∀ s ∈ xs, s.isGrouped :=
  forall_of_cons rfl fun _ _ => rfl

/-! ### What may stand where -/

namespace Expression

variable {x : Expression} {least : Nat}

theorem binds_of_isOperand (h : x.isOperand) (least : Nat) : x.binds least := by
  cases x <;> first | exact h | cases h

theorem isTest_of_binds (h : x.binds least) : x.isTest := by
  cases x <;> first | rfl | cases h

theorem isOperand_of_isCallee (h : x.isCallee) : x.isOperand := by
  cases x <;> first | rfl | cases h

theorem isCallee_of_isPrimary (h : x.isPrimary) : x.isCallee := by
  cases x <;> first | rfl | cases h

theorem isCalled_of_isPrimary (h : x.isPrimary) : x.isCalled = false := by
  cases x <;> first | rfl | cases h

theorem exposesIn_of_isPrimary (h : x.isPrimary) : x.exposesIn = false := by
  cases x <;> first | rfl | cases h

end Expression
end EcmaPress

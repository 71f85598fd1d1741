import EcmaPress.Tree

/-!
# Nodes

The expressions, statements, functions and handlers of a tree in the order of a walk, each before
what lies inside it. The body of a loop comes before its condition, as in the walk that binds names.
-/

namespace EcmaPress

/-- A part of a tree that has parts of its own. -/
inductive TreeNode where
  | expression (expression : Expression)
  | statement (statement : Statement)
  | function (function : Function)
  | handler (handler : CatchClause)

mutual

/-- The nodes inside an expression. -/
def Expression.inside : Expression → List TreeNode
  | .thisValue _ | .identifier _ | .literal .. => []
  | .array _ elements => elementsNodes elements
  | .object _ properties => propertiesNodes properties
  | .function f => .function f :: f.inside
  | .paren _ x | .unary _ _ x | .preUpdate _ _ x | .postUpdate _ _ x | .newBare _ x
  | .member x _ => .expression x :: x.inside
  | .binary _ _ left right | .assign _ _ left right | .index left right =>
    .expression left :: left.inside ++ .expression right :: right.inside
  | .conditional test consequent alternate =>
    .expression test :: test.inside ++ .expression consequent :: consequent.inside ++
      .expression alternate :: alternate.inside
  | .call callee arguments | .newCall _ callee arguments =>
    .expression callee :: callee.inside ++ expressionsNodes arguments
  | .sequence expressions => expressionsNodes expressions

/-- The nodes of expressions. -/
def expressionsNodes : List Expression → List TreeNode
  | [] => []
  | x :: rest => .expression x :: x.inside ++ expressionsNodes rest

/-- The nodes of an element. -/
def Element.nodes : Element → List TreeNode
  | .hole => []
  | .value x => .expression x :: x.inside

/-- The nodes of elements. -/
def elementsNodes : List Element → List TreeNode
  | [] => []
  | x :: rest => x.nodes ++ elementsNodes rest

/-- The nodes of a property. -/
def Property.nodes : Property → List TreeNode
  | .init _ x => .expression x :: x.inside
  | .accessor _ _ f => .function f :: f.inside

/-- The nodes of properties. -/
def propertiesNodes : List Property → List TreeNode
  | [] => []
  | p :: rest => p.nodes ++ propertiesNodes rest

/-- The nodes inside a function. -/
def Function.inside : Function → List TreeNode
  | .mk _ _ _ body => statementsNodes body

/-- The nodes of a variable. -/
def Declarator.nodes : Declarator → List TreeNode
  | .bare _ => []
  | .init _ _ x => .expression x :: x.inside

/-- The nodes of variables. -/
def declaratorsNodes : List Declarator → List TreeNode
  | [] => []
  | d :: rest => d.nodes ++ declaratorsNodes rest

/-- The nodes of the first part of a `for` statement. -/
def ForInit.nodes : ForInit → List TreeNode
  | .declarations _ declarators => declaratorsNodes declarators
  | .expression x => .expression x :: x.inside

/-- The nodes of a clause of `switch`. -/
def SwitchClause.nodes : SwitchClause → List TreeNode
  | .mk test body =>
    (match test with
      | none => []
      | some test => .expression test :: test.inside) ++
      statementsNodes body

/-- The nodes of the clauses of `switch`. -/
def clausesNodes : List SwitchClause → List TreeNode
  | [] => []
  | clause :: rest => clause.nodes ++ clausesNodes rest

/-- The nodes inside the handler of `try`. -/
def CatchClause.inside : CatchClause → List TreeNode
  | .mk _ body => statementsNodes body

/-- The nodes inside a statement. -/
def Statement.inside : Statement → List TreeNode
  | .block body => statementsNodes body
  | .declarations _ declarators => declaratorsNodes declarators
  | .empty | .debugger _ | .jump .. => []
  | .expression x | .throwValue _ x => .expression x :: x.inside
  | .ifElse _ test consequent alternate =>
    .expression test :: test.inside ++ .statement consequent :: consequent.inside ++
      match alternate with
      | none => []
      | some alternate => .statement alternate :: alternate.inside
  | .doWhile _ body test | .whileDo _ test body =>
    .statement body :: body.inside ++ .expression test :: test.inside
  | .forLoop _ init test update body =>
    (match init with
      | none => []
      | some init => init.nodes) ++
      (match test with
        | none => []
        | some test => .expression test :: test.inside) ++
      (match update with
        | none => []
        | some update => .expression update :: update.inside) ++
      .statement body :: body.inside
  | .forIn _ left right body =>
    left.nodes ++ .expression right :: right.inside ++ .statement body :: body.inside
  | .returnValue _ argument =>
    match argument with
    | none => []
    | some argument => .expression argument :: argument.inside
  | .withObject _ object body =>
    .expression object :: object.inside ++ .statement body :: body.inside
  | .switch _ discriminant clauses =>
    .expression discriminant :: discriminant.inside ++ clausesNodes clauses
  | .labeled _ body => .statement body :: body.inside
  | .tryCatch _ body handler finalizer =>
    statementsNodes body ++
      (match handler with
        | none => []
        | some handler => .handler handler :: handler.inside) ++
      (match finalizer with
        | none => []
        | some finalizer => statementsNodes finalizer)
  | .function f => .function f :: f.inside

/-- The nodes of statements. -/
def statementsNodes : List Statement → List TreeNode
  | [] => []
  | s :: rest => .statement s :: s.inside ++ statementsNodes rest

end

/-- The nodes of a program. -/
def Program.nodes (program : Program) : List TreeNode :=
  statementsNodes program.body

/-! ### Children -/

/-- The nodes directly below an element. -/
def Element.children : Element → List TreeNode
  | .hole => []
  | .value x => [.expression x]

/-- The nodes directly below a property. -/
def Property.children : Property → List TreeNode
  | .init _ x => [.expression x]
  | .accessor _ _ f => [.function f]

/-- The nodes directly below a variable. -/
def Declarator.children : Declarator → List TreeNode
  | .bare _ => []
  | .init _ _ x => [.expression x]

/-- The nodes directly below the first part of a `for` statement. -/
def ForInit.children : ForInit → List TreeNode
  | .declarations _ declarators => declarators.flatMap Declarator.children
  | .expression x => [.expression x]

/-- The nodes directly below a clause of `switch`. -/
def SwitchClause.children : SwitchClause → List TreeNode
  | .mk test body => test.toList.map .expression ++ body.map .statement

/-- The nodes directly below an expression. -/
def Expression.children : Expression → List TreeNode
  | .thisValue _ | .identifier _ | .literal .. => []
  | .array _ elements => elements.flatMap Element.children
  | .object _ properties => properties.flatMap Property.children
  | .function f => [.function f]
  | .paren _ x | .unary _ _ x | .preUpdate _ _ x | .postUpdate _ _ x | .newBare _ x
  | .member x _ => [.expression x]
  | .binary _ _ left right | .assign _ _ left right | .index left right =>
    [.expression left, .expression right]
  | .conditional test consequent alternate =>
    [.expression test, .expression consequent, .expression alternate]
  | .call callee arguments | .newCall _ callee arguments =>
    .expression callee :: arguments.map .expression
  | .sequence expressions => expressions.map .expression

/-- The nodes directly below a statement. -/
def Statement.children : Statement → List TreeNode
  | .block body => body.map .statement
  | .declarations _ declarators => declarators.flatMap Declarator.children
  | .empty | .debugger _ | .jump .. => []
  | .expression x | .throwValue _ x => [.expression x]
  | .ifElse _ test consequent alternate =>
    .expression test :: .statement consequent :: alternate.toList.map .statement
  | .doWhile _ body test | .whileDo _ test body => [.statement body, .expression test]
  | .forLoop _ init test update body =>
    init.toList.flatMap ForInit.children ++ test.toList.map .expression ++
      update.toList.map .expression ++ [.statement body]
  | .forIn _ left right body => left.children ++ [.expression right, .statement body]
  | .returnValue _ argument => argument.toList.map .expression
  | .withObject _ object body => [.expression object, .statement body]
  | .switch _ discriminant clauses =>
    .expression discriminant :: clauses.flatMap SwitchClause.children
  | .labeled _ body => [.statement body]
  | .tryCatch _ body handler finalizer =>
    body.map .statement ++ handler.toList.map .handler ++ (finalizer.getD []).map .statement
  | .function f => [.function f]

namespace TreeNode

/-- The nodes directly below a node. -/
def children : TreeNode → List TreeNode
  | expression x => x.children
  | statement s => s.children
  | function (.mk _ _ _ body) => body.map statement
  | handler (.mk _ body) => body.map statement

/-- The nodes below a node. -/
def inside : TreeNode → List TreeNode
  | expression x => x.inside
  | statement s => s.inside
  | function f => f.inside
  | handler h => h.inside

/-- A node and the nodes below it. -/
def nodes (n : TreeNode) : List TreeNode :=
  n :: n.inside

end TreeNode

/-! ### The nodes of lists -/

theorem expressionsNodes_eq (xs : List Expression) :
    expressionsNodes xs = (xs.map TreeNode.expression).flatMap TreeNode.nodes := by
  induction xs with
  | nil => rfl
  | cons x rest ih => rw [expressionsNodes, ih]; rfl

theorem statementsNodes_eq (xs : List Statement) :
    statementsNodes xs = (xs.map TreeNode.statement).flatMap TreeNode.nodes := by
  induction xs with
  | nil => rfl
  | cons s rest ih => rw [statementsNodes, ih]; rfl

theorem Element.nodes_eq (x : Element) : x.nodes = x.children.flatMap TreeNode.nodes := by
  cases x <;> simp [nodes, children, TreeNode.nodes, TreeNode.inside]

theorem elementsNodes_eq (xs : List Element) :
    elementsNodes xs = (xs.flatMap Element.children).flatMap TreeNode.nodes := by
  induction xs with
  | nil => rfl
  | cons x rest ih => rw [elementsNodes, ih, x.nodes_eq, List.flatMap_cons, List.flatMap_append]

theorem Property.nodes_eq (p : Property) : p.nodes = p.children.flatMap TreeNode.nodes := by
  cases p <;> simp [nodes, children, TreeNode.nodes, TreeNode.inside]

theorem propertiesNodes_eq (xs : List Property) :
    propertiesNodes xs = (xs.flatMap Property.children).flatMap TreeNode.nodes := by
  induction xs with
  | nil => rfl
  | cons p rest ih => rw [propertiesNodes, ih, p.nodes_eq, List.flatMap_cons, List.flatMap_append]

theorem Declarator.nodes_eq (d : Declarator) : d.nodes = d.children.flatMap TreeNode.nodes := by
  cases d <;> simp [nodes, children, TreeNode.nodes, TreeNode.inside]

theorem declaratorsNodes_eq (xs : List Declarator) :
    declaratorsNodes xs = (xs.flatMap Declarator.children).flatMap TreeNode.nodes := by
  induction xs with
  | nil => rfl
  | cons d rest ih => rw [declaratorsNodes, ih, d.nodes_eq, List.flatMap_cons, List.flatMap_append]

theorem ForInit.nodes_eq (init : ForInit) : init.nodes = init.children.flatMap TreeNode.nodes := by
  cases init <;> simp [nodes, children, declaratorsNodes_eq, TreeNode.nodes, TreeNode.inside]

theorem SwitchClause.nodes_eq (clause : SwitchClause) :
    clause.nodes = clause.children.flatMap TreeNode.nodes := by
  obtain ⟨test, body⟩ := clause
  cases test <;> simp [nodes, children, statementsNodes_eq, TreeNode.nodes, TreeNode.inside]

theorem clausesNodes_eq (xs : List SwitchClause) :
    clausesNodes xs = (xs.flatMap SwitchClause.children).flatMap TreeNode.nodes := by
  induction xs with
  | nil => rfl
  | cons c rest ih => rw [clausesNodes, ih, c.nodes_eq, List.flatMap_cons, List.flatMap_append]

/-! ### Induction -/

namespace TreeNode

/-- Below a node are its children and what is below them. -/
theorem inside_eq (n : TreeNode) : n.inside = n.children.flatMap nodes := by
  cases n with
  | expression x =>
    cases x <;>
      simp [inside, children, nodes, Expression.inside, Expression.children, expressionsNodes_eq,
        elementsNodes_eq, propertiesNodes_eq]
  | statement s =>
    cases s with
    | ifElse _ _ _ alternate =>
      cases alternate <;> simp [inside, children, nodes, Statement.inside, Statement.children]
    | forLoop _ init test update _ =>
      cases init <;> cases test <;> cases update <;>
        simp [inside, children, nodes, Statement.inside, Statement.children, ForInit.nodes_eq]
    | returnValue _ argument =>
      cases argument <;> simp [inside, children, nodes, Statement.inside, Statement.children]
    | tryCatch _ _ handler finalizer =>
      cases handler <;> cases finalizer <;>
        simp [inside, children, nodes, Statement.inside, Statement.children, statementsNodes_eq]
    | _ =>
      simp [inside, children, nodes, Statement.inside, Statement.children, statementsNodes_eq,
        declaratorsNodes_eq, clausesNodes_eq, ForInit.nodes_eq]
  | function f =>
    obtain ⟨_, _, _, body⟩ := f
    exact statementsNodes_eq body
  | handler h =>
    obtain ⟨_, body⟩ := h
    exact statementsNodes_eq body

/-- What holds of a node whenever it holds of its children holds of all nodes. -/
theorem induction {P : TreeNode → Prop} (h : ∀ n, (∀ child ∈ n.children, P child) → P n)
    (n : TreeNode) : P n := by
  -- A child has fewer nodes than the node above it.
  generalize hsize : n.nodes.length = size
  induction size using Nat.strongRecOn generalizing n with
  | ind size ih =>
    apply h
    intro child hchild
    refine ih child.nodes.length ?_ child rfl
    have hle : child.nodes.length ≤ n.inside.length := by
      rw [inside_eq, List.flatMap_def]
      exact (List.sublist_flatten_of_mem (List.mem_map_of_mem hchild)).length_le
    rw [← hsize, nodes, List.length_cons]
    exact Nat.lt_succ_of_le hle

end TreeNode
end EcmaPress

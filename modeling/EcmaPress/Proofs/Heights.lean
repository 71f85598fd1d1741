import Mathlib.Data.List.Chain
import EcmaPress.Proofs.Children
import EcmaPress.Proofs.Levels
import EcmaPress.Proofs.Reading

/-!
# Heights of trees

How many nodes a way down a tree meets. The nesting of a text is counted where a statement, a value,
the operand of an operator or that of `new` begins; the chains that are built in loops, of calls,
member accesses and binary operators, are counted by the loops. Every level of nesting thus adds no
more than a fixed number of nodes to a way down, and so there is a bound for all trees.
-/

namespace EcmaPress
namespace TreeNode

/-- Whether a node is a statement, an expression or a function. A handler is not: it is the part of
a statement that holds more statements. -/
def isCounted : TreeNode → Bool
  | .expression _ | .statement _ | .function _ => true
  | .handler _ => false

/-- A way down a tree goes from each node to one directly below it. -/
def IsWayDown (way : List TreeNode) : Prop :=
  way.IsChain fun n child => child ∈ n.children

/-- No way down from a node meets more than `height` nodes, itself among them. -/
def Within (height : Nat) (n : TreeNode) : Prop :=
  ∀ way, IsWayDown (n :: way) → (n :: way).countP isCounted ≤ height

variable {height : Nat} {n : TreeNode}

theorem Within.mono {more : Nat} (h : n.Within height) (hle : height ≤ more) : n.Within more :=
  fun way hway => (h way hway).trans hle

/-- The ways down from a node go on from the nodes directly below it. -/
theorem within_of_children (h : ∀ child ∈ n.children, child.Within height) :
    n.Within (height + if n.isCounted then 1 else 0) := by
  intro way hway
  rw [List.countP_cons]
  refine Nat.add_le_add_right ?_ _
  cases way with
  | nil => exact Nat.zero_le _
  | cons child way =>
    obtain ⟨hchild, hrest⟩ := List.isChain_cons_cons.mp hway
    exact h child hchild way hrest

end TreeNode

open TreeNode

/-- An expression whose ways down meet at most so many nodes. -/
def Expression.Within (height : Nat) (x : Expression) : Prop :=
  (expression x).Within height

/-- A statement whose ways down meet at most so many nodes. -/
def Statement.Within (height : Nat) (s : Statement) : Prop :=
  (statement s).Within height

theorem Expression.within_of_children {height : Nat} {x : Expression}
    (h : ∀ child ∈ x.children, child.Within height) : x.Within (height + 1) :=
  TreeNode.within_of_children (n := .expression x) h

theorem Statement.within_of_children {height : Nat} {s : Statement}
    (h : ∀ child ∈ s.children, child.Within height) : s.Within (height + 1) :=
  TreeNode.within_of_children (n := .statement s) h

attribute [local simp] Expression.children

/-- The parsers of a level answer trees of at most this height. -/
structure Inner.Within (inner : Inner) (height : Nat) : Prop where
  statement : inner.statement.Ensures (Statement.Within height)
  assignment : ∀ noIn, (inner.assignment noIn).Ensures (Expression.Within height)
  unary : inner.unary.Ensures (Expression.Within height)
  newExpression : inner.newExpression.Ensures (Expression.Within height)

namespace Grammar

open EcmaPress.Parser EcmaPress.Parser.Ensures

variable {inner : Inner} {height : Nat} (h : inner.Within height)

include h

theorem within_expression (noIn : Bool) :
    (expression inner noIn).Ensures (Expression.Within (height + 1)) := by
  refine bind (separated (h.assignment noIn)) fun xs hxs => ?_
  split
  · next single =>
    have hsingle := hxs single (List.mem_singleton_self _)
    exact .pure (hsingle.mono (Nat.le_succ _))
  · exact .pure (Expression.within_of_children (List.forall_mem_map.mpr hxs))

/-- Below a node that is read on a level stand lists of expressions and what is made of the
statements of the next inner level. -/
theorem supplies_within : inner.Supplies (Statement.Within height) (TreeNode.Within (height + 1)) where
  statement := h.statement
  assignment := fun noIn => (h.assignment noIn).imp fun _ hx => hx.mono (Nat.le_succ _)
  expression := within_expression h
  ofStatement := fun _ hs => hs.mono (Nat.le_succ _)
  ofBody := fun _ _ _ _ hbody => within_of_children (List.forall_mem_map.mpr hbody)
  ofHandler := fun param body hbody =>
    (within_of_children (n := .handler (.mk param body)) (List.forall_mem_map.mpr hbody)).mono
      (Nat.le_succ _)

theorem within_primary : (primary inner).Ensures (Expression.Within (height + 2)) :=
  (below_primary (supplies_within h)).imp fun _ => Expression.within_of_children

theorem within_statement : (statement inner).Ensures (Statement.Within (height + 2)) :=
  (below_statement (supplies_within h)).imp fun _ => Statement.within_of_children

/-! ### Chains -/

theorem within_member {a : Nat} {object : Expression} (hle : height + 1 ≤ a)
    (hobject : object.Within a) : (member inner object).Ensures (Expression.Within (a + 1)) := by
  refine andThen fun _ => ite (andThen fun _ => ite (andThen fun _ => .pure ?_) unexpected) ?_
  · exact Expression.within_of_children (List.forall_mem_singleton.mpr hobject)
  · refine andThen fun _ => bind (within_expression h false) fun x hx => andThen fun _ => .pure ?_
    exact Expression.within_of_children (by simpa using ⟨hobject, hx.mono hle⟩)

theorem within_suffix {a : Nat} {callee : Expression} (hle : height + 1 ≤ a)
    (hcallee : callee.Within a) : (suffix inner callee).Ensures (Expression.Within (a + 1)) := by
  refine andThen fun _ => ite (bind (below_arguments (supplies_within h)) fun xs hxs => .pure ?_)
    (within_member h hle hcallee)
  refine Expression.within_of_children (List.forall_mem_cons.mpr ⟨hcallee, ?_⟩)
  exact List.forall_mem_map.mpr fun x hx => (hxs x hx).mono hle

omit h in
/-- Each link of a chain stands on top of those before it. -/
theorem within_chain {more : Token → Bool} {link : Expression → Parser Expression} {least a : Nat}
    (hlink : ∀ {a : Nat} {base : Expression}, least ≤ a → base.Within a →
      (link base).Ensures (Expression.Within (a + 1)))
    (links : Nat) {base : Expression} (hle : least ≤ a) (hbase : base.Within a) :
    (chain more link base links).Ensures (Expression.Within (a + links)) := by
  induction links generalizing base a with
  | zero => exact andThen fun _ => ite fail (.pure hbase)
  | succ links ih =>
    refine andThen fun _ => ite (bind (hlink hle hbase) fun x hx => ?_) (.pure ?_)
    · rw [Nat.add_comm links, ← Nat.add_assoc]
      exact ih (hle.trans (Nat.le_succ a)) hx
    · exact hbase.mono (Nat.le_add_right ..)

theorem within_newExpression :
    (newExpression inner).Ensures (Expression.Within (height + 3 + maxChain)) := by
  have hoperand : (newOperand inner).Ensures (Expression.Within (height + 2)) :=
    andThen fun _ => ite (h.newExpression.imp fun _ hx => hx.mono (Nat.le_add_right ..))
      (within_primary h)
  refine andThen fun keyword => bind hoperand fun base hbase =>
    bind (within_chain (within_member h) _ (Nat.le_succ _) hbase) fun callee hcallee => ?_
  have hle : height + 1 ≤ height + 2 + maxChain := by omega
  rw [show height + 3 + maxChain = height + 2 + maxChain + 1 by omega]
  refine andThen fun _ => ite ?_ (.pure ?_)
  · refine bind (below_arguments (supplies_within h)) fun xs hxs => .pure ?_
    refine Expression.within_of_children (List.forall_mem_cons.mpr ⟨hcallee, ?_⟩)
    exact List.forall_mem_map.mpr fun x hx => (hxs x hx).mono hle
  · exact Expression.within_of_children (List.forall_mem_singleton.mpr hcallee)

theorem within_leftHandSide :
    (leftHandSide inner).Ensures (Expression.Within (height + 3 + 2 * maxChain)) := by
  have hbase : (callOperand inner).Ensures (Expression.Within (height + 3 + maxChain)) :=
    andThen fun _ => ite (within_newExpression h)
      ((within_primary h).imp fun _ hx => hx.mono (by omega))
  rw [show height + 3 + 2 * maxChain = height + 3 + maxChain + maxChain by omega]
  exact bind hbase fun _ hx => within_chain (within_suffix h) _ (by omega) hx

/-! ### Operators -/

theorem within_postfixUpdate :
    (postfixUpdate inner).Ensures (Expression.Within (height + 3 + 2 * maxChain + 1)) := by
  refine bind (within_leftHandSide h) fun x hx => andThen fun token => ?_
  split
  · refine ite (andThen fun _ => .pure ?_) fail
    exact Expression.within_of_children (List.forall_mem_singleton.mpr hx)
  · exact .pure (hx.mono (Nat.le_succ _))

theorem within_unary :
    (unary inner).Ensures (Expression.Within (height + 3 + 2 * maxChain + 1)) := by
  have hunary : inner.unary.Ensures (Expression.Within (height + 3 + 2 * maxChain)) :=
    h.unary.imp fun _ hx => hx.mono (by omega)
  refine andThen fun token => ?_
  split
  · refine andThen fun _ => bind hunary fun x hx => .pure ?_
    exact Expression.within_of_children (List.forall_mem_singleton.mpr hx)
  · refine andThen fun _ => bind hunary fun x hx => ite (.pure ?_) throw
    exact Expression.within_of_children (List.forall_mem_singleton.mpr hx)
  · exact within_postfixUpdate h

omit h in
/-- How high an expression may be whose binary operators all bind at least as tightly as `least`,
when `operand` bounds the height of their operands: one chain for each level of operators, and for
the level above them all, which has none. -/
def binaryHeight (operand least : Nat) : Nat :=
  operand + (12 - least) * maxChain

omit h in
theorem binaryHeight_succ {operand least : Nat} (h : least ≤ 11) :
    binaryHeight operand (least + 1) + maxChain = binaryHeight operand least := by
  have hlevels : 12 - least = 12 - (least + 1) + 1 := by omega
  rw [binaryHeight, binaryHeight, hlevels, Nat.add_mul, Nat.one_mul, Nat.add_assoc]

omit h in
theorem binaryHeight_anti {operand least least' : Nat} (h : least ≤ least') :
    binaryHeight operand least' ≤ binaryHeight operand least :=
  Nat.add_le_add_left (Nat.mul_le_mul_right _ (Nat.sub_le_sub_left h 12)) _

omit h in
/-- A run of operators on one level stands on top of its left operand. The right operands are no
higher than that, since their operators bind more tightly. -/
theorem within_binaryRest {operand : Nat}
    (hunary : (unary inner).Ensures (Expression.Within operand)) (noIn : Bool) (least links : Nat)
    {a : Nat} {left : Expression} (hle : binaryHeight operand (least + 1) ≤ a)
    (hleft : left.Within a) :
    (binaryRest inner noIn least links left).Ensures (Expression.Within (a + links)) := by
  induction hn : operatorsLeft least links using Nat.strongRecOn
    generalizing least links a left with
  | ind n ih =>
    subst hn
    have hstop : left.Within (a + links) := hleft.mono (Nat.le_add_right ..)
    rw [binaryRest]
    refine andThen fun token => ?_
    split
    · exact .pure hstop
    · next op _ =>
      split
      · exact .pure hstop
      · next hleast =>
        have htight : least ≤ op.precedence := Nat.le_of_not_lt hleast
        cases links with
        | zero => exact fail
        | succ links =>
          refine andThen fun _ => bind hunary fun x hx => bind (P := Expression.Within a) ?_ ?_
          · -- The right operand begins with an operand and takes the levels above this one.
            have hright := ih _ (operatorsLeft_right op htight _) (op.precedence + 1) maxChain
              le_rfl (hx.mono (Nat.le_add_right ..)) rfl
            rw [binaryHeight_succ (Nat.succ_le_succ op.precedence_le)] at hright
            exact hright.imp fun _ hy =>
              hy.mono ((binaryHeight_anti (Nat.succ_le_succ htight)).trans hle)
          · intro right hright
            have hnode : (Expression.binary op token.pos left right).Within (a + 1) :=
              Expression.within_of_children (by simpa using ⟨hleft, hright⟩)
            rw [Nat.add_comm links, ← Nat.add_assoc]
            exact ih _ (operatorsLeft_links _ _) _ _ (hle.trans (Nat.le_succ a)) hnode rfl

/-! ### Levels -/

/-- How much higher than what is read one level further in an assignment may be. -/
theorem within_assignment (noIn : Bool) :
    (assignment inner noIn).Ensures
      (Expression.Within (height + 4 + 13 * maxChain + 1 + 1)) := by
  have hbinary : (binary inner noIn).Ensures (Expression.Within (height + 4 + 13 * maxChain)) := by
    refine bind (within_unary h) fun left hleft => ?_
    have hrest := within_binaryRest (within_unary h) noIn 1 maxChain le_rfl
      (hleft.mono (Nat.le_add_right ..))
    rw [binaryHeight_succ (by omega), binaryHeight] at hrest
    exact hrest.imp fun _ hx => hx.mono (by omega)
  have hvalue : ∀ noIn, (inner.assignment noIn).Ensures
      (Expression.Within (height + 4 + 13 * maxChain)) := fun noIn =>
    (h.assignment noIn).imp fun _ hx => hx.mono (by omega)
  have hconditional : (conditional inner noIn).Ensures
      (Expression.Within (height + 4 + 13 * maxChain + 1)) := by
    refine bind hbinary fun test htest => andThen fun _ => ite ?_ (.pure (htest.mono (by omega)))
    refine bind (hvalue false) fun x hx => andThen fun _ => bind (hvalue noIn) fun y hy => .pure ?_
    exact Expression.within_of_children (by simpa using ⟨htest, hx, hy⟩)
  refine bind hconditional fun left hleft => andThen fun token => ?_
  split
  · exact .pure (hleft.mono (by omega))
  · refine ite (andThen fun _ => bind (hvalue noIn) fun right hright => .pure ?_) fail
    exact Expression.within_of_children (by simpa using ⟨hleft, hright.mono (Nat.le_succ _)⟩)

end Grammar

/-- A level of nesting adds no more than sixteen chains to the height of a tree. -/
theorem Inner.Within.around {inner : Inner} {height : Nat} (h : inner.Within height) :
    inner.around.Within (height + 16 * maxChain) := by
  have hchain : 2 ≤ maxChain := by decide
  refine ⟨?_, fun noIn => ?_, ?_, ?_⟩
  · exact (Grammar.within_statement h).imp fun _ hs => hs.mono (by omega)
  · exact (Grammar.within_assignment h noIn).imp fun _ hx => hx.mono (by omega)
  · exact (Grammar.within_unary h).imp fun _ hx => hx.mono (by omega)
  · exact (Grammar.within_newExpression h).imp fun _ hx => hx.mono (by omega)

theorem Inner.Within.ofDepth (depth : Nat) :
    (Inner.ofDepth depth).Within (16 * maxChain * depth) := by
  induction depth with
  | zero => exact ⟨.fail, fun _ => .fail, .fail, .fail⟩
  | succ depth ih =>
    rw [Nat.mul_succ]
    exact ih.around

/-- No way down the tree of a text that is accepted meets more nodes than this, however long the
text is. -/
theorem parse_countP_le {text : String} {source : Option String} {program : Program}
    (h : parse text source = .ok program) {s : Statement} (hs : s ∈ program.body)
    {way : List TreeNode} (hway : IsWayDown (.statement s :: way)) :
    (TreeNode.statement s :: way).countP isCounted ≤ 16 * maxChain * maxDepth := by
  have hwithin : Grammar.program.Ensures fun program =>
      ∀ s ∈ program.body, s.Within (16 * maxChain * maxDepth) :=
    .bind (Grammar.below_statementsUntil (Grammar.supplies_within (.ofDepth maxDepth)) _)
      fun _ hbody => .pure hbody
  obtain ⟨c, c', -, hprogram⟩ := parse_eq_ok.mp h
  exact hwithin c program c' hprogram s hs way hway

/-- The way down to the operand in an argument of a call. -/
theorem parse_countP_le_call : ∃ program s way,
    parse "f(-a)" none = .ok program ∧ s ∈ program.body ∧ IsWayDown (.statement s :: way) ∧
      (TreeNode.statement s :: way).countP isCounted = 4 ∧
      (TreeNode.statement s :: way).countP isCounted ≤ 16 * maxChain * maxDepth := by
  have hparse : ((parse "f(-a)" none).toOption.any fun program =>
      program.body.any fun s => (TreeNode.statement s).children.any fun a =>
        a.children.any fun b => b.children.any fun c =>
          a.isCounted && (b.isCounted && c.isCounted)) = true := by
    decide +kernel
  obtain ⟨program, h, hbody⟩ := exists_ok_of_any hparse
  obtain ⟨s, hs, hbody⟩ := List.any_eq_true.mp hbody
  obtain ⟨a, ha, hbody⟩ := List.any_eq_true.mp hbody
  obtain ⟨b, hb, hbody⟩ := List.any_eq_true.mp hbody
  obtain ⟨c, hc, hcounted⟩ := List.any_eq_true.mp hbody
  simp only [Bool.and_eq_true] at hcounted
  have hway : IsWayDown (.statement s :: [a, b, c]) := by
    simp [IsWayDown, ha, hb, hc]
  refine ⟨program, s, [a, b, c], h, hs, hway, ?_, parse_countP_le h hs hway⟩
  have hstatement : (TreeNode.statement s).isCounted = true := rfl
  simp [hstatement, hcounted]

end EcmaPress

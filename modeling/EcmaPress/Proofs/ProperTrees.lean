import EcmaPress.Proofs.Children
import EcmaPress.Proofs.Contact
import EcmaPress.Proofs.Continuation

/-!
# Proper trees

Two things hold of every node of a tree that a parser has made, and not of all trees. An accessor
has no name of its own, and no statement begins with a closing brace. What holds of the nodes of
such trees follows from them by induction on the tree.
-/

namespace EcmaPress

/-- Something other than a closing brace is written first. -/
def Piece.opens : List Piece → Prop
  | .token text _ _ :: _ => text ≠ "\x7d"
  | .name _ :: _ | .terminator _ :: _ => True
  | .space :: _ | .newline :: _ | .indent :: _ | .dedent :: _ | [] => False

/-- Whether a property has no name of a function in it. -/
def Property.isNameless : Property → Bool
  | .init .. => true
  | .accessor _ _ (.mk _ id _ _) => id.isNone

namespace TreeNode

/-- What a parser takes care of in a node. -/
def Proper : TreeNode → Prop
  | .statement s => ∀ last, Piece.opens (s.pieces last)
  | .expression (.object _ properties) => properties.all Property.isNameless = true
  | .expression _ | .function _ | .handler _ => True

/-- A node is proper, and so are all below it. -/
def AllProper (n : TreeNode) : Prop :=
  ∀ m ∈ n.nodes, m.Proper

theorem AllProper.node {n : TreeNode} (h : n.Proper)
    (hchildren : ∀ child ∈ n.children, child.AllProper) : n.AllProper := by
  refine List.forall_mem_cons.mpr ⟨h, fun m hm => ?_⟩
  rw [inside_eq, List.mem_flatMap] at hm
  obtain ⟨child, hchild, hm⟩ := hm
  exact hchildren child hchild m hm

/-- Induction on proper trees. -/
theorem AllProper.induction {P : TreeNode → Prop}
    (h : ∀ n, n.Proper → (∀ child ∈ n.children, P child) → P n) {n : TreeNode} (hn : n.AllProper) :
    P n := by
  induction n using TreeNode.induction with
  | h n ih =>
    refine h n (hn n (List.mem_cons_self ..)) fun child hchild => ih child hchild fun m hm => ?_
    refine hn m (List.mem_cons_of_mem _ ?_)
    rw [inside_eq]
    exact List.mem_flatMap.mpr ⟨child, hchild, hm⟩

end TreeNode

open TreeNode

/-- All nodes of an expression are proper. -/
def Expression.AllProper (x : Expression) : Prop :=
  (expression x).AllProper

/-- All nodes of a statement are proper. -/
def Statement.AllProper (s : Statement) : Prop :=
  (statement s).AllProper

/-- All nodes below a statement are proper. -/
def Statement.ProperInside (s : Statement) : Prop :=
  ∀ n ∈ s.children, n.AllProper

/-- All nodes of a property are proper. -/
def Property.AllProper (p : Property) : Prop :=
  p.isNameless = true ∧ ∀ n ∈ p.children, n.AllProper

attribute [local simp] TreeNode.children Expression.children Expression.AllProper

/-- The parsers of a level answer proper trees. -/
structure Inner.AllProper (inner : Inner) : Prop where
  statement : inner.statement.Ensures Statement.AllProper
  assignment : ∀ noIn, (inner.assignment noIn).Ensures Expression.AllProper
  unary : inner.unary.Ensures Expression.AllProper
  newExpression : inner.newExpression.Ensures Expression.AllProper

namespace Grammar

open EcmaPress.Parser EcmaPress.Parser.Ensures

variable {inner : Inner} (h : inner.AllProper)

include h

theorem proper_expression (noIn : Bool) : (expression inner noIn).Ensures Expression.AllProper := by
  refine bind (separated (h.assignment noIn)) fun xs hxs => ?_
  split
  · exact .pure (hxs _ (List.mem_singleton_self _))
  · exact .pure (.node trivial (List.forall_mem_map.mpr hxs))

/-- What is read one level further in makes proper nodes. -/
theorem supplies_proper : inner.Supplies Statement.AllProper TreeNode.AllProper where
  statement := h.statement
  assignment := h.assignment
  expression := proper_expression h
  ofStatement := fun _ hs => hs
  ofBody := fun _ _ _ _ hbody => .node trivial (List.forall_mem_map.mpr hbody)
  ofHandler := fun _ _ hbody => .node trivial (List.forall_mem_map.mpr hbody)

theorem proper_property : (property inner).Ensures Property.AllProper := by
  have hnameless : (property inner).Ensures fun p => p.isNameless = true := by
    refine andThen fun key => andThen fun token => ?_
    split
    · exact andThen fun _ => andThen fun _ => .pure rfl
    · exact andThen fun _ => andThen fun _ => .pure rfl
  intro c p c' hok
  exact ⟨hnameless c p c' hok, below_property (supplies_proper h) c p c' hok⟩

theorem proper_object : (object inner).Ensures fun x => (TreeNode.expression x).Proper := by
  refine andThen fun _ => bind (many (P := Property.AllProper) ?_) fun xs hxs =>
    .pure (List.all_eq_true.mpr fun p hp => (hxs p hp).1)
  refine andThen fun _ => ite none (bind (proper_property h) fun p hp => andThen fun _ => .pure ?_)
  rintro _ ⟨⟩
  exact hp

omit h in
theorem proper_literal (kind : LiteralKind) :
    (literal kind).Ensures fun x => (TreeNode.expression x).Proper :=
  andThen fun _ => .pure trivial

theorem proper_primary : (primary inner).Ensures Expression.AllProper := by
  have hnode : (primary inner).Ensures fun x => (TreeNode.expression x).Proper := by
    refine andThen fun token => ?_
    split
    · exact proper_literal _
    · exact proper_literal _
    · exact andThen fun _ => .pure trivial
    · exact proper_literal _
    · exact proper_literal _
    · exact proper_literal _
    · exact andThen fun _ => andThen fun _ => andThen fun _ => .pure trivial
    · exact andThen fun _ => .pure trivial
    · exact andThen fun _ => proper_literal _
    · exact andThen fun _ => proper_literal _
    · exact andThen fun _ => andThen fun _ => .pure trivial
    · exact proper_object h
    · exact andThen fun _ => andThen fun _ => andThen fun _ => .pure trivial
    · exact unexpected
  intro c x c' hok
  exact .node (hnode c x c' hok) (below_primary (supplies_proper h) c x c' hok)

/-! ### Calls, members and operators -/

theorem proper_member {object : Expression} (hobject : object.AllProper) :
    (member inner object).Ensures Expression.AllProper := by
  refine andThen fun _ => ite (andThen fun _ => ite (andThen fun _ => .pure ?_) unexpected) ?_
  · exact .node trivial (by simpa using hobject)
  · refine andThen fun _ => bind (proper_expression h false) fun x hx => andThen fun _ => .pure ?_
    exact .node trivial (by simpa using ⟨hobject, hx⟩)

theorem proper_suffix {callee : Expression} (hcallee : callee.AllProper) :
    (suffix inner callee).Ensures Expression.AllProper := by
  refine andThen fun _ => ite (bind (below_arguments (supplies_proper h)) fun xs hxs => .pure ?_)
    (proper_member h hcallee)
  exact .node trivial (by simpa using ⟨hcallee, hxs⟩)

omit h in
theorem proper_chain {more : Token → Bool} {link : Expression → Parser Expression}
    (hlink : ∀ base, base.AllProper → (link base).Ensures Expression.AllProper) (links : Nat)
    {base : Expression} (hbase : base.AllProper) :
    (chain more link base links).Ensures Expression.AllProper := by
  induction links generalizing base with
  | zero => exact andThen fun _ => ite fail (.pure hbase)
  | succ links ih =>
    exact andThen fun _ => ite (bind (hlink base hbase) fun _ hx => ih hx) (.pure hbase)

theorem proper_newArguments (pos : Position) {callee : Expression} (hcallee : callee.AllProper) :
    (newArguments inner pos callee).Ensures Expression.AllProper := by
  refine andThen fun _ =>
    ite (bind (below_arguments (supplies_proper h)) fun xs hxs => .pure ?_) (.pure ?_)
  · exact .node trivial (by simpa using ⟨hcallee, hxs⟩)
  · exact .node trivial (by simpa using hcallee)

theorem proper_newExpression : (newExpression inner).Ensures Expression.AllProper := by
  refine andThen fun keyword => bind (P := Expression.AllProper) ?_ fun base hbase =>
    bind (proper_chain (fun _ => proper_member h) _ hbase) fun callee hcallee =>
      proper_newArguments h _ hcallee
  exact andThen fun _ => ite h.newExpression (proper_primary h)

theorem proper_postfixUpdate : (postfixUpdate inner).Ensures Expression.AllProper := by
  have hbase : (callOperand inner).Ensures Expression.AllProper :=
    andThen fun _ => ite (proper_newExpression h) (proper_primary h)
  have hleft : (leftHandSide inner).Ensures Expression.AllProper :=
    bind hbase fun _ hx => proper_chain (fun _ => proper_suffix h) _ hx
  refine bind hleft fun x hx => andThen fun token => ?_
  split
  · exact ite (andThen fun _ => .pure (.node trivial (by simpa using hx))) fail
  · exact .pure hx

theorem proper_unary : (unary inner).Ensures Expression.AllProper := by
  refine andThen fun token => ?_
  split
  · exact andThen fun _ => bind h.unary fun x hx => .pure (.node trivial (by simpa using hx))
  · exact andThen fun _ => bind h.unary fun x hx =>
      ite (.pure (.node trivial (by simpa using hx))) throw
  · exact proper_postfixUpdate h

theorem proper_binaryRest (noIn : Bool) (least links : Nat) {left : Expression}
    (hleft : left.AllProper) :
    (binaryRest inner noIn least links left).Ensures Expression.AllProper := by
  induction hn : operatorsLeft least links using Nat.strongRecOn generalizing least links left with
  | ind n ih =>
    subst hn
    rw [binaryRest]
    refine andThen fun token => ?_
    split
    · exact .pure hleft
    · next op _ =>
      split
      · exact .pure hleft
      · next hleast =>
        cases links with
        | zero => exact fail
        | succ links =>
          refine andThen fun _ => bind (proper_unary h) fun operand hoperand =>
            bind (ih _ (operatorsLeft_right op (by omega) _) _ _ hoperand rfl)
              fun right hright => ?_
          exact ih _ (operatorsLeft_links _ _) _ _
            (.node trivial (by simpa using ⟨hleft, hright⟩)) rfl

theorem proper_conditional (noIn : Bool) :
    (conditional inner noIn).Ensures Expression.AllProper := by
  have hbinary : (binary inner noIn).Ensures Expression.AllProper :=
    bind (proper_unary h) fun _ hx => proper_binaryRest h noIn _ _ hx
  refine bind hbinary fun test htest => andThen fun _ => ite ?_ (.pure htest)
  exact bind (h.assignment false) fun x hx => andThen fun _ => bind (h.assignment noIn) fun y hy =>
    .pure (.node trivial (by simpa using ⟨htest, hx, hy⟩))

theorem proper_assignment (noIn : Bool) :
    (assignment inner noIn).Ensures Expression.AllProper := by
  refine bind (proper_conditional h noIn) fun left hleft => andThen fun token => ?_
  split
  · exact .pure hleft
  · exact ite (andThen fun _ => bind (h.assignment noIn) fun right hright =>
      .pure (.node trivial (by simpa using ⟨hleft, hright⟩))) fail

theorem proper_statement : (statement inner).Ensures Statement.ProperInside :=
  below_statement (supplies_proper h)

end Grammar

/-! ### Programs -/

/-- No statement begins with a closing brace: its first piece comes from the token where it is
read, and none is read at such a brace. -/
theorem opens_statement (depth : Nat) :
    (Inner.ofDepth depth).statement.Ensures fun s => (statement s).Proper := by
  intro c s c' h last
  obtain ⟨t, m, p, qs, hpieces, -, htakes, hfits, -⟩ :=
    ((Inner.Echoes.ofDepth depth).statement c s c' h last).leads
  rw [hpieces]
  cases p with
  | token text origin shape =>
    obtain rfl : text = t.text := Option.some.inj hfits.1
    intro htext
    have hread := htakes.readable
    have hkind : t.kind ≠ .regex := fun hkind => by
      have hslash := hread.slash hkind
      rw [htext] at hslash
      exact absurd hslash (by decide)
    have his : t.is "\x7d" = true := (hread.spelled hkind).is htext (by decide)
    cases htakes with
    | plain => exact statement_refuses (List.mem_cons_self ..) his s c' h
    | regex _ hregex =>
      obtain ⟨n, -, htoken, -⟩ := Cursor.asRegex_eq_ok.mp hregex
      exact hkind (by rw [htoken]; rfl)
  | name | terminator => trivial
  | space | newline | indent | dedent => exact absurd hfits.1 nofun

/-- Whatever may be read at some level of nesting is a proper tree. -/
theorem Inner.AllProper.ofDepth (depth : Nat) : (Inner.ofDepth depth).AllProper := by
  induction depth with
  | zero => exact ⟨.fail, fun _ => .fail, .fail, .fail⟩
  | succ depth ih =>
    refine ⟨?_, Grammar.proper_assignment ih, Grammar.proper_unary ih,
      Grammar.proper_newExpression ih⟩
    intro c s c' h
    exact .node (opens_statement (depth + 1) c s c' h) (Grammar.proper_statement ih c s c' h)

/-- A program is a proper tree. -/
theorem Program.allProper :
    Grammar.program.Ensures fun program => ∀ s ∈ program.body, s.AllProper :=
  .bind (Grammar.below_statementsUntil (Grammar.supplies_proper (.ofDepth maxDepth)) _)
    fun _ hbody => .pure hbody

end EcmaPress

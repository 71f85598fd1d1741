import EcmaPress.Proofs.Ensures
import EcmaPress.Proofs.Grouping
import EcmaPress.Proofs.Levels

/-!
# Programs are grouped as their text is

What every parser of the grammar answers is grouped. For most parsers this is so whatever stands
behind what they read. Two loops need to know it: an object that is made without a list of arguments
is not followed by a call or a member access, and the operator behind a run of operators binds less
tightly than all of them.
-/

namespace EcmaPress

attribute [local simp] Expression.isGrouped Element.isGrouped Property.isGrouped Function.isGrouped
  Declarator.isGrouped ForInit.isGrouped SwitchClause.isGrouped CatchClause.isGrouped
  Statement.isGrouped expressionsGrouped_iff elementsGrouped_iff propertiesGrouped_iff
  declaratorsGrouped_iff clausesGrouped_iff statementsGrouped_iff Expression.exposesIn
  Declarator.exposesIn ForInit.exposesIn expressionsExposeIn_eq_false

/-- An expression is grouped, and does not show `in` to the outside where this is excluded. -/
structure Expression.Grouped (noIn : Bool) (x : Expression) : Prop where
  grouped : x.isGrouped
  enclosed : noIn → x.exposesIn = false

/-- An expression is grouped and may be an operand of any operator. -/
structure Expression.GroupedOperand (x : Expression) : Prop where
  grouped : x.isGrouped
  operand : x.isOperand
  enclosed : x.exposesIn = false

theorem Expression.GroupedOperand.toGrouped {x : Expression} (h : x.GroupedOperand) (noIn : Bool) :
    x.Grouped noIn :=
  ⟨h.grouped, fun _ => h.enclosed⟩

theorem Expression.GroupedOperand.of_primary {x : Expression} (h : x.isGrouped ∧ x.isPrimary) :
    x.GroupedOperand :=
  ⟨h.1, isOperand_of_isCallee (isCallee_of_isPrimary h.2), exposesIn_of_isPrimary h.2⟩

/-- A parser answers objects that are made by `new`, and such that lack a list of arguments only
where no call and no member access follows. -/
def Parser.MakesObjects (parser : Parser Expression) : Prop :=
  ∀ c x c', parser c = .ok (x, c') →
    x.GroupedOperand ∧ x.isCalled = false ∧ (c'.token.isSuffix → x.isCallee)

/-- The parsers of a level answer grouped trees. -/
structure Inner.Grouped (inner : Inner) : Prop where
  statement : inner.statement.Ensures fun s => s.isGrouped
  assignment : ∀ noIn, (inner.assignment noIn).Ensures (Expression.Grouped noIn)
  unary : inner.unary.Ensures Expression.GroupedOperand
  newExpression : inner.newExpression.MakesObjects

namespace Grammar

open EcmaPress.Parser EcmaPress.Parser.Ensures

variable {inner : Inner} (h : inner.Grouped)

/-! ### Expressions without operators -/

include h

theorem grouped_expression (noIn : Bool) :
    (expression inner noIn).Ensures (Expression.Grouped noIn) := by
  refine bind (separated (h.assignment noIn)) fun xs hxs => ?_
  split
  · exact .pure (hxs _ (List.mem_singleton_self _))
  · refine .pure ⟨?_, fun hno => ?_⟩
    · simpa using fun x hx => (hxs x hx).grouped
    · simpa using fun x hx => (hxs x hx).enclosed hno

/-- An expression between brackets, where `in` may stand. -/
theorem grouped_enclosed : (expression inner false).Ensures fun x => x.isGrouped :=
  (grouped_expression h false).imp fun _ hx => hx.grouped

theorem grouped_value : (inner.assignment false).Ensures fun x => x.isGrouped :=
  (h.assignment false).imp fun _ hx => hx.grouped

theorem grouped_parenthesized : (parenthesized inner).Ensures fun x => x.isGrouped :=
  andThen fun _ => bind (grouped_enclosed h) fun _ hx => andThen fun _ => .pure hx

theorem grouped_statementsUntil (stop : Token → Bool) :
    (statementsUntil inner stop).Ensures fun xs => ∀ s ∈ xs, s.isGrouped :=
  many (andThen fun _ => ite none (ite unexpected h.statement.some))

theorem grouped_block : (block inner).Ensures fun xs => ∀ s ∈ xs, s.isGrouped :=
  andThen fun _ => bind (grouped_statementsUntil h _) fun _ hbody => andThen fun _ => .pure hbody

theorem grouped_functionParts (params : Parser (List Identifier)) :
    (functionParts inner params).Ensures fun parts => ∀ s ∈ parts.2, s.isGrouped :=
  andThen fun _ => bind (grouped_block h) fun _ hbody => .pure hbody

theorem grouped_arguments : (arguments inner).Ensures fun xs => ∀ x ∈ xs, x.isGrouped :=
  inParens (grouped_value h)

theorem grouped_array : (array inner).Ensures fun x => x.isGrouped ∧ x.isPrimary := by
  refine andThen fun _ => bind (many (P := fun x => x.isGrouped) ?_) fun xs hxs => .pure ?_
  · refine andThen fun _ => ite none (andThen fun _ => ite (.pure ?_) ?_)
    · rintro _ ⟨⟩
      simp
    · refine bind (grouped_value h) fun x hx => andThen fun _ => .pure ?_
      rintro _ ⟨⟩
      simpa using hx
  · exact ⟨by simpa using hxs, rfl⟩

theorem grouped_property : (property inner).Ensures fun p => p.isGrouped := by
  refine andThen fun key => andThen fun token => ?_
  split
  · exact andThen fun name => bind (grouped_functionParts h _) fun parts hbody =>
      .pure (by simpa using hbody)
  · exact andThen fun _ => bind (grouped_value h) fun x hx => .pure (by simpa using hx)

theorem grouped_object : (object inner).Ensures fun x => x.isGrouped ∧ x.isPrimary := by
  refine andThen fun _ => bind (many (P := fun p => p.isGrouped) ?_) fun xs hxs => .pure ?_
  · refine andThen fun _ => ite none (bind (grouped_property h) fun p hp => andThen fun _ =>
      .pure ?_)
    rintro _ ⟨⟩
    exact hp
  · exact ⟨by simpa using hxs, rfl⟩

omit h in
theorem grouped_literal (kind : LiteralKind) :
    (literal kind).Ensures fun x => x.isGrouped ∧ x.isPrimary :=
  andThen fun _ => .pure ⟨by simp, rfl⟩

theorem grouped_functionExpression :
    (functionExpression inner).Ensures fun x => x.isGrouped ∧ x.isPrimary :=
  andThen fun _ => andThen fun _ => bind (grouped_functionParts h _) fun _ hbody =>
    .pure ⟨by simpa using hbody, rfl⟩

theorem grouped_paren : (paren inner).Ensures fun x => x.isGrouped ∧ x.isPrimary :=
  andThen fun _ => bind (grouped_enclosed h) fun _ hx => andThen fun _ =>
    .pure ⟨by simpa using hx, rfl⟩

theorem grouped_primary : (primary inner).Ensures fun x => x.isGrouped ∧ x.isPrimary := by
  refine andThen fun token => ?_
  split
  · exact grouped_literal _
  · exact grouped_literal _
  · exact andThen fun _ => .pure ⟨by simp, rfl⟩
  · exact grouped_literal _
  · exact grouped_literal _
  · exact grouped_literal _
  · exact grouped_functionExpression h
  · exact andThen fun _ => .pure ⟨by simp, rfl⟩
  · exact andThen fun _ => grouped_literal _
  · exact andThen fun _ => grouped_literal _
  · exact grouped_array h
  · exact grouped_object h
  · exact grouped_paren h
  · exact unexpected

/-! ### Calls and members -/

theorem grouped_member {object : Expression} (hobject : object.GroupedOperand)
    (hcallee : object.isCallee) : (member inner object).Ensures fun x =>
      x.GroupedOperand ∧ x.isCallee ∧ x.isCalled = object.isCalled := by
  have hgrouped := hobject.grouped
  have henclosed := hobject.enclosed
  refine andThen fun _ => ite (andThen fun _ => ite (andThen fun _ => .pure ?_) unexpected) ?_
  · exact ⟨⟨by simp [hgrouped, hcallee], rfl, by simpa using henclosed⟩, rfl, rfl⟩
  · refine andThen fun _ => bind (grouped_enclosed h) fun x hx => andThen fun _ => .pure ?_
    exact ⟨⟨by simp [hgrouped, hcallee, hx], rfl, by simpa using henclosed⟩, rfl, rfl⟩

theorem grouped_suffix {callee : Expression} (hoperand : callee.GroupedOperand)
    (hcallee : callee.isCallee) :
    (suffix inner callee).Ensures fun x => x.GroupedOperand ∧ x.isCallee := by
  refine andThen fun _ => ite (bind (grouped_arguments h) fun xs hxs => .pure ?_)
    ((grouped_member h hoperand hcallee).imp fun _ hx => ⟨hx.1, hx.2.1⟩)
  have hgrouped := hoperand.grouped
  have henclosed := hoperand.enclosed
  exact ⟨⟨by simpa [hgrouped, hcallee] using hxs, rfl, by simpa using henclosed⟩, rfl⟩

omit h in
/-- A chain keeps up what its links keep up, if it may begin with what it begins with. It goes on as
long as it can. -/
theorem chain_ends {P : Expression → Prop} {more : Token → Bool}
    {link : Expression → Parser Expression}
    (hlink : ∀ base, P base → base.isCallee → (link base).Ensures fun x => P x ∧ x.isCallee)
    {links : Nat} {base x : Expression} {c c' : Cursor} (hbase : P base)
    (hcallee : more c.token → base.isCallee) (hok : chain more link base links c = .ok (x, c')) :
    P x ∧ more c'.token = false := by
  induction links generalizing base c with
  | zero =>
    rw [chain, peek_bind, ite_eq_ok, fail_eq_ok, pure_eq_ok] at hok
    obtain ⟨-, hfail⟩ | ⟨hmore, rfl, rfl⟩ := hok
    · exact hfail.elim
    · exact ⟨hbase, by simpa using hmore⟩
  | succ links ih =>
    rw [chain, peek_bind, ite_eq_ok, pure_eq_ok] at hok
    obtain ⟨hmore, hok⟩ | ⟨hmore, rfl, rfl⟩ := hok
    · obtain ⟨y, m, hy, hrest⟩ := bind_eq_ok.mp hok
      obtain ⟨hP, hnext⟩ := hlink base hbase (hcallee hmore) c y m hy
      exact ih hP (fun _ => hnext) hrest
    · exact ⟨hbase, by simpa using hmore⟩

/-- What parsers of operands answer, if one of them reads what begins with `new`. -/
theorem makes_operand {parser : Parser Expression} (hnew : parser.MakesObjects) :
    (do if (← peek).is "new" then parser else primary inner : Parser Expression).MakesObjects := by
  intro c x c' hok
  rw [peek_bind, ite_eq_ok] at hok
  obtain ⟨-, hok⟩ | ⟨-, hok⟩ := hok
  · exact hnew c x c' hok
  · have hx := grouped_primary h c x c' hok
    exact ⟨.of_primary hx, Expression.isCalled_of_isPrimary hx.2,
      fun _ => Expression.isCallee_of_isPrimary hx.2⟩

theorem makes_newExpression : (newExpression inner).MakesObjects := by
  intro c x c' hok
  obtain ⟨_, -, hok⟩ := advance_bind_eq_ok.mp hok
  obtain ⟨base, m, hbase, hok⟩ := bind_eq_ok.mp hok
  obtain ⟨callee, m', hchain, hok⟩ := bind_eq_ok.mp hok
  obtain ⟨hoperand, hcalled, hcallee⟩ := makes_operand h h.newExpression _ base m hbase
  obtain ⟨⟨hoperand, hcalled⟩, hend⟩ :=
    chain_ends (P := fun x => x.GroupedOperand ∧ x.isCalled = false)
      (fun base hbase hcallee => (grouped_member h hbase.1 hcallee).imp fun x hx =>
        ⟨⟨hx.1, hx.2.2.trans hbase.2⟩, hx.2.1⟩)
      ⟨hoperand, hcalled⟩ (fun hmore => hcallee (by simp [Token.isSuffix, hmore])) hchain
  have hgrouped := hoperand.grouped
  have henclosed := hoperand.enclosed
  rw [newArguments, peek_bind, ite_eq_ok, pure_eq_ok] at hok
  obtain ⟨-, hok⟩ | ⟨hparen, rfl, rfl⟩ := hok
  · obtain ⟨xs, m'', hxs, hok⟩ := bind_eq_ok.mp hok
    obtain ⟨rfl, rfl⟩ := pure_eq_ok.mp hok
    have hlist := grouped_arguments h _ xs _ hxs
    exact ⟨⟨by simpa [hgrouped, hcalled] using hlist, rfl, by simpa using henclosed⟩, rfl,
      fun _ => rfl⟩
  · refine ⟨⟨by simp [hgrouped, hcalled], rfl, by simpa using henclosed⟩, rfl, fun hsuffix => ?_⟩
    -- Neither a list of arguments nor a member access follows.
    rw [Token.isSuffix, hend, Bool.or_false] at hsuffix
    exact absurd hsuffix hparen

theorem grouped_leftHandSide : (leftHandSide inner).Ensures Expression.GroupedOperand := by
  intro c x c' hok
  obtain ⟨base, m, hbase, hchain⟩ := bind_eq_ok.mp hok
  obtain ⟨hoperand, -, hcallee⟩ := makes_operand h (makes_newExpression h) c base m hbase
  exact (chain_ends (fun _ hoperand hcallee => grouped_suffix h hoperand hcallee) hoperand hcallee
    hchain).1

/-! ### Operators -/

theorem grouped_postfixUpdate : (postfixUpdate inner).Ensures Expression.GroupedOperand := by
  refine bind (grouped_leftHandSide h) fun x hx => andThen fun token => ?_
  split
  · refine branch (fun hreference => andThen fun _ => .pure ⟨?_, rfl, ?_⟩) fun _ => fail
    · simp [hx.grouped, hx.operand, hreference]
    · simpa using hx.enclosed
  · exact .pure hx

theorem grouped_unary : (unary inner).Ensures Expression.GroupedOperand := by
  refine andThen fun token => ?_
  split
  · refine andThen fun _ => bind h.unary fun x hx => .pure ⟨?_, rfl, by simpa using hx.enclosed⟩
    simp [hx.grouped, hx.operand]
  · refine andThen fun _ => bind h.unary fun x hx =>
      branch (fun hreference => .pure ⟨?_, rfl, ?_⟩) fun _ => throw
    · simp [hx.grouped, hx.operand, hreference]
    · simpa using hx.enclosed
  · exact grouped_postfixUpdate h

omit h in
/-- Where `in` is excluded, it is no operator. -/
theorem binaryOperator?_ne_isIn {token : Token} :
    token.binaryOperator? true ≠ Option.some .isIn := by
  unfold Token.binaryOperator?
  split
  · nofun
  · next hcond =>
    intro hop
    have htext := BinaryOperator.ofSymbol?_eq_some.mp hop
    simp [htext, BinaryOperator.symbol] at hcond

/-- A run of operators that bind at least as tightly as `least`: what stands to the left of the next
one binds as tightly as this one, and behind the run stands an operator that binds less tightly. -/
theorem grouped_binaryRest (noIn : Bool) (least links : Nat) {left x : Expression} {c c' : Cursor}
    (hleft : left.Grouped noIn) (hbinds : left.binds least)
    (hnext : ∀ op ∈ c.token.binaryOperator? noIn, least ≤ op.precedence → left.binds op.precedence)
    (hok : binaryRest inner noIn least links left c = .ok (x, c')) :
    x.Grouped noIn ∧ x.binds least ∧
      ∀ op ∈ c'.token.binaryOperator? noIn, op.precedence < least := by
  induction hn : operatorsLeft least links using Nat.strongRecOn
    generalizing least links left x c c' with
  | ind n ih =>
    subst hn
    rw [binaryRest, peek_bind] at hok
    cases hop : c.token.binaryOperator? noIn with
    | none =>
      simp only [hop] at hok
      obtain ⟨rfl, rfl⟩ := pure_eq_ok.mp hok
      exact ⟨hleft, hbinds, fun op hsome => by rw [hop] at hsome; cases hsome⟩
    | some op =>
      simp only [hop, ite_eq_ok] at hok
      obtain ⟨hloose, hok⟩ | ⟨hleast, hok⟩ := hok
      · obtain ⟨rfl, rfl⟩ := pure_eq_ok.mp hok
        refine ⟨hleft, hbinds, fun op' hop' => ?_⟩
        obtain rfl : op = op' := Option.some.inj (hop.symm.trans hop')
        exact hloose
      · cases links with
        | zero => exact (fail_eq_ok.mp hok).elim
        | succ links =>
          have htight : least ≤ op.precedence := Nat.le_of_not_lt hleast
          obtain ⟨m, -, hok⟩ := advance_bind_eq_ok.mp hok
          obtain ⟨operand, m', hunary, hok⟩ := bind_eq_ok.mp hok
          obtain ⟨right, m'', hrest, hok⟩ := bind_eq_ok.mp hok
          have hoperand := grouped_unary h m operand m' hunary
          obtain ⟨hright, hbindsRight, hloose⟩ :=
            ih _ (operatorsLeft_right op htight _) _ _ (hoperand.toGrouped noIn)
              (Expression.binds_of_isOperand hoperand.operand _)
              (fun _ _ _ => Expression.binds_of_isOperand hoperand.operand _) hrest rfl
          refine ih _ (operatorsLeft_links _ _) _ _ ?_ ?_ ?_ hok rfl
          · refine ⟨?_, fun hno => ?_⟩
            · simp [hnext op hop htight, hbindsRight, hleft.grouped, hright.grouped]
            · have hne : op ≠ .isIn := by
                rintro rfl
                exact binaryOperator?_ne_isIn (hno ▸ hop)
              simp [hne, hleft.enclosed hno, hright.enclosed hno]
          · simpa [Expression.binds] using htight
          · -- The next operator is none that the right operand would have taken.
            intro op' hop' _
            simpa [Expression.binds] using Nat.le_of_lt_succ (hloose op' hop')

theorem grouped_binary (noIn : Bool) :
    (binary inner noIn).Ensures fun x => x.Grouped noIn ∧ x.isTest := by
  intro c x c' hok
  obtain ⟨left, m, hunary, hrest⟩ := bind_eq_ok.mp hok
  have hleft := grouped_unary h c left m hunary
  obtain ⟨hx, hbinds, -⟩ := grouped_binaryRest h noIn _ _ (hleft.toGrouped noIn)
    (Expression.binds_of_isOperand hleft.operand _)
    (fun _ _ _ => Expression.binds_of_isOperand hleft.operand _) hrest
  exact ⟨hx, Expression.isTest_of_binds hbinds⟩

theorem grouped_conditional (noIn : Bool) :
    (conditional inner noIn).Ensures (Expression.Grouped noIn) := by
  refine bind (grouped_binary h noIn) fun test htest => andThen fun _ => ite ?_ (.pure htest.1)
  refine bind (grouped_value h) fun x hx => andThen fun _ => bind (h.assignment noIn) fun y hy =>
    .pure ⟨?_, fun hno => ?_⟩
  · simp [htest.1.grouped, htest.2, hx, hy.grouped]
  · simp [htest.1.enclosed hno, hy.enclosed hno]

theorem grouped_assignment (noIn : Bool) :
    (assignment inner noIn).Ensures (Expression.Grouped noIn) := by
  refine bind (grouped_conditional h noIn) fun left hleft => andThen fun token => ?_
  split
  · exact .pure hleft
  · refine branch (fun hreference => andThen fun _ => bind (h.assignment noIn) fun right hright =>
      .pure ⟨?_, fun hno => ?_⟩) fun _ => fail
    · simp [hreference, hleft.grouped, hright.grouped]
    · simp [hleft.enclosed hno, hright.enclosed hno]

/-! ### Statements -/

theorem grouped_declarator (noIn : Bool) : (declarator inner noIn).Ensures fun d =>
    d.isGrouped ∧ (noIn → d.exposesIn = false) := by
  refine andThen fun id => andThen fun _ => ite ?_ (.pure (by simp))
  refine andThen fun _ => bind (h.assignment noIn) fun x hx => .pure ⟨?_, fun hno => ?_⟩
  · simpa using hx.grouped
  · simpa using hx.enclosed hno

theorem grouped_tested : (tested inner).Ensures fun head => head.2.isGrouped :=
  andThen fun _ => bind (grouped_parenthesized h) fun _ hx => .pure hx

theorem grouped_declarations : (declarations inner).Ensures fun s => s.isGrouped := by
  refine andThen fun _ => bind (separated (grouped_declarator h false)) fun xs hxs =>
    andThen fun _ => .pure ?_
  simpa using fun d hd => (hxs d hd).1

theorem grouped_ifElse : (ifElse inner).Ensures fun s => s.isGrouped := by
  refine bind (grouped_tested h) fun head htest => bind h.statement fun consequent hthen =>
    bind (andThen fun _ => ite h.statement.some none) fun alternate helse => .pure ?_
  cases alternate with
  | none => simp [htest, hthen]
  | some alternate => simpa [htest, hthen] using helse alternate rfl

theorem grouped_doWhile : (doWhile inner).Ensures fun s => s.isGrouped :=
  andThen fun _ => bind h.statement fun body hbody => andThen fun _ =>
    bind (grouped_parenthesized h) fun test htest => andThen fun _ =>
      .pure (by simp [hbody, htest])

theorem grouped_whileDo : (whileDo inner).Ensures fun s => s.isGrouped :=
  bind (grouped_tested h) fun head htest => bind h.statement fun body hbody =>
    .pure (by simp [hbody, htest])

theorem grouped_forInit : (forInit inner).Ensures fun head =>
    ∀ init ∈ head.1, (!init.exposesIn && init.isGrouped) := by
  refine andThen fun _ => ite (.pure nofun) (ite ?_ ?_)
  · refine andThen fun _ => bind (separated (grouped_declarator h true)) fun xs hxs =>
      andThen fun _ => .pure ?_
    rintro _ ⟨⟩
    simpa using ⟨fun d hd => (hxs d hd).2 rfl, fun d hd => (hxs d hd).1⟩
  · refine bind (grouped_expression h true) fun x hx => andThen fun _ => ite fail (.pure ?_)
    rintro _ ⟨⟩
    simpa using ⟨hx.enclosed rfl, hx.grouped⟩

theorem grouped_expressionBefore (close : String) :
    (expressionBefore inner close).Ensures fun part => ∀ x ∈ part, x.isGrouped :=
  andThen fun _ => ite none (grouped_enclosed h).some

theorem grouped_forLoop : (forLoop inner).Ensures fun s => s.isGrouped := by
  refine andThen fun keyword => andThen fun _ => bind (P := fun head =>
    ∀ body : Statement, body.isGrouped → (ForHead.statement keyword.pos body head).isGrouped)
      (bind (grouped_forInit h) fun init hinit => ?_) fun head hhead => andThen fun _ =>
        bind h.statement fun body hbody => .pure (hhead body hbody)
  unfold forRest
  split
  · next left =>
    refine andThen fun _ => bind (grouped_enclosed h) fun right hright => .pure fun body hbody => ?_
    simpa [ForHead.statement, hright, hbody] using hinit left rfl
  · next init _ _ =>
    refine andThen fun _ => bind (grouped_expressionBefore h ";") fun test htest =>
      andThen fun _ => bind (grouped_expressionBefore h ")") fun update hupdate =>
        .pure fun body hbody => ?_
    cases init <;> cases test <;> cases update <;> simp_all [ForHead.statement]

omit h in
theorem grouped_jump (kind : JumpKind) : (jump kind).Ensures fun s => s.isGrouped :=
  andThen fun _ => andThen fun label => andThen fun _ => .pure (by simp)

theorem grouped_returnValue : (returnValue inner).Ensures fun s => s.isGrouped := by
  refine andThen fun _ => bind (andThen fun _ => ite none (grouped_enclosed h).some)
    fun argument hargument => andThen fun _ => .pure ?_
  cases argument with
  | none => simp
  | some argument => simpa using hargument argument rfl

theorem grouped_withObject : (withObject inner).Ensures fun s => s.isGrouped :=
  bind (grouped_tested h) fun head hobject => bind h.statement fun body hbody =>
    .pure (by simp [hobject, hbody])

theorem grouped_clauseBody : (clauseBody inner).Ensures fun xs => ∀ s ∈ xs, s.isGrouped :=
  andThen fun _ => grouped_statementsUntil h _

theorem grouped_caseClauses :
    (caseClauses inner).Ensures fun clauses => ∀ clause ∈ clauses, clause.isGrouped := by
  refine many (andThen fun _ => ite (bind (grouped_enclosed h) fun test htest =>
    bind (grouped_clauseBody h) fun body hbody => .pure ?_) none)
  rintro _ ⟨⟩
  simpa [htest] using hbody

theorem grouped_defaultClauses :
    (defaultClauses inner).Ensures fun clauses => ∀ clause ∈ clauses, clause.isGrouped := by
  refine andThen fun _ => ite ?_ (.pure fun _ hclause => nomatch hclause)
  refine bind (grouped_clauseBody h) fun body hbody => bind (grouped_caseClauses h)
    fun clauses hclauses => .pure (List.forall_mem_cons.mpr ⟨?_, hclauses⟩)
  simpa using hbody

theorem grouped_switch : (switch inner).Ensures fun s => s.isGrouped := by
  refine bind (grouped_tested h) fun head hdiscriminant => andThen fun _ =>
    bind (grouped_caseClauses h) fun before hbefore => bind (grouped_defaultClauses h)
      fun after hafter => andThen fun _ => .pure ?_
  have hclauses := List.forall_mem_append.mpr ⟨hbefore, hafter⟩
  simpa [hdiscriminant] using hclauses

theorem grouped_throwValue : (throwValue inner).Ensures fun s => s.isGrouped :=
  andThen fun _ => andThen fun _ => ite fail (bind (grouped_enclosed h) fun x hx =>
    andThen fun _ => .pure (by simpa using hx))

theorem grouped_catchClause :
    (catchClause inner).Ensures fun part => ∀ clause ∈ part, clause.isGrouped := by
  refine andThen fun _ => ite (andThen fun _ => andThen fun param => andThen fun _ =>
    bind (grouped_block h) fun body hbody => .pure ?_) none
  rintro _ ⟨⟩
  simpa using hbody

theorem grouped_tryCatch : (tryCatch inner).Ensures fun s => s.isGrouped := by
  refine andThen fun _ => bind (grouped_block h) fun body hbody =>
    bind (grouped_catchClause h) fun handler hhandler =>
    bind (andThen fun _ => ite (grouped_block h).some none) fun finalizer hfinalizer =>
      ite unexpected (.pure ?_)
  cases handler <;> cases finalizer <;> simp_all

theorem grouped_functionDeclaration : (functionDeclaration inner).Ensures fun s => s.isGrouped :=
  andThen fun _ => andThen fun _ => ite fail (andThen fun id =>
    bind (grouped_functionParts h _) fun parts hbody => .pure (by simpa using hbody))

theorem grouped_expressionStatement : (expressionStatement inner).Ensures fun s => s.isGrouped := by
  refine bind (grouped_enclosed h) fun x hx => andThen fun token => ?_
  split
  · exact andThen fun _ => bind h.statement fun body hbody => .pure (by simpa using hbody)
  · exact andThen fun _ => .pure (by simpa using hx)

theorem grouped_statement : (statement inner).Ensures fun s => s.isGrouped := by
  refine andThen fun token => ?_
  split
  · exact bind (grouped_block h) fun body hbody => .pure (by simpa using hbody)
  · exact andThen fun _ => .pure (by simp)
  · exact grouped_declarations h
  · exact grouped_ifElse h
  · exact grouped_doWhile h
  · exact grouped_whileDo h
  · exact grouped_forLoop h
  · exact grouped_jump _
  · exact grouped_jump _
  · exact grouped_returnValue h
  · exact grouped_withObject h
  · exact grouped_switch h
  · exact grouped_throwValue h
  · exact grouped_tryCatch h
  · exact andThen fun _ => andThen fun _ => .pure (by simp)
  · exact grouped_functionDeclaration h
  · exact grouped_expressionStatement h

end Grammar

/-! ### Programs -/

/-- Whatever may be read at some level of nesting is grouped. -/
theorem Inner.Grouped.ofDepth (depth : Nat) : (Inner.ofDepth depth).Grouped := by
  induction depth with
  | zero => exact ⟨.fail, fun _ => .fail, .fail, fun _ _ _ hok => (Parser.fail_eq_ok.mp hok).elim⟩
  | succ depth ih =>
    exact ⟨Grammar.grouped_statement ih, Grammar.grouped_assignment ih, Grammar.grouped_unary ih,
      Grammar.makes_newExpression ih⟩

/-- What is parsed is grouped as its text is. -/
theorem parse_isGrouped {source : String} {name : Option String} {program : Program}
    (h : parse source name = .ok program) : program.isGrouped := by
  have hgrouped : Grammar.program.Ensures fun program => program.isGrouped :=
    .bind (Grammar.grouped_statementsUntil (.ofDepth maxDepth) _) fun _ hbody =>
      .pure (statementsGrouped_iff.mpr hbody)
  obtain ⟨c, c', -, hprogram⟩ := parse_eq_ok.mp h
  exact hgrouped c program c' hprogram

/-- Operators of three levels, a call of what `new` makes, and `in` in the middle of a condition. -/
theorem parse_isGrouped_for : ∃ program,
    parse "for (var i = a ? b in c : d; i - 1 - -j * k++; ) new f.g(h)(i)" none = .ok program ∧
      program.isGrouped := by
  have hparse : ((parse "for (var i = a ? b in c : d; i - 1 - -j * k++; ) new f.g(h)(i)"
      none).toOption.any fun _ => true) = true := by
    decide +kernel
  obtain ⟨program, h, -⟩ := exists_ok_of_any hparse
  exact ⟨program, h, parse_isGrouped h⟩

end EcmaPress

import EcmaPress.Grammar.Program
import EcmaPress.Proofs.Progress

/-!
# Progress in the grammar

The parsers of statements, of expressions, of properties and of the pieces that they are made of
make progress whenever they answer, on every level of nesting. Those that begin with whatever token
is there do so where a token is left.
-/

namespace EcmaPress

/-- The parsers of a level make progress. -/
structure Inner.Progresses (inner : Inner) : Prop where
  statement : inner.statement.Progresses
  assignment : ∀ noIn, (inner.assignment noIn).Progresses
  unary : inner.unary.Progresses
  newExpression : inner.newExpression.Progresses

namespace Grammar

open EcmaPress.Parser

variable {inner : Inner} (h : inner.Progresses)

include h

/-! ### Expressions -/

theorem progresses_expression (noIn : Bool) : (expression inner noIn).Progresses := by
  refine (h.assignment noIn).separated.gain fun xs => ?_
  split
  · exact .pure rfl
  · exact .pure rfl

theorem progresses_parenthesized : (parenthesized inner).Progresses :=
  (progresses_expect _).gain fun _ => (progresses_expression h _).follow fun _ =>
    (progresses_expect _).follow fun _ => .pure rfl

theorem advances_statementUnless (stop : Token → Bool) :
    (statementUnless inner stop).Advances Option.isSome :=
  .peek fun _ => .ite (.pure rfl) (.ite .unexpected h.statement.item)

theorem follows_statementsUntil (stop : Token → Bool) : (statementsUntil inner stop).Follows :=
  (advances_statementUnless h stop).many

theorem progresses_block : (block inner).Progresses :=
  (progresses_expect _).gain fun _ => (follows_statementsUntil h _).follow fun _ =>
    follows_advance.follow fun _ => .pure rfl

theorem progresses_functionParts {params : Parser (List Identifier)} (hparams : params.Progresses) :
    (functionParts inner params).Progresses :=
  hparams.gain fun _ => (progresses_block h).follow fun _ => .pure rfl

omit h in
theorem progresses_parameters : parameters.Progresses :=
  progresses_identifier.inParens

omit h in
theorem progresses_accessorParameters (kind : AccessorKind) :
    (accessorParameters kind).Progresses := by
  cases kind with
  | get => exact (progresses_expect _).gain fun _ => (progresses_expect _).follow fun _ => .pure rfl
  | set =>
    exact (progresses_expect _).gain fun _ => progresses_identifier.follow fun _ =>
      (progresses_expect _).follow fun _ => .pure rfl

theorem progresses_arguments : (arguments inner).Progresses :=
  (h.assignment false).inParens

omit h in
theorem follows_itemEnd (close : String) : (itemEnd close).Follows :=
  .peek fun _ => .ite (.pure rfl) ((progresses_expect _).follow fun _ => .pure rfl)

theorem advances_element : (element inner).Advances Option.isSome :=
  .ifEat (.pure rfl) (.ifEat (.pure rfl)
    ((h.assignment false).gain fun _ => (follows_itemEnd _).follow fun _ => .pure rfl))

omit h in
theorem progresses_propertyKey : propertyKey.Progresses := by
  refine .ofToken fun c => ?_
  generalize hkind : c.token.kind = kind
  have hread (hne : kind ≠ .endOfText) : (advance >>= fun t =>
      Pure.pure (⟨t.text, t.pos⟩ : PropertyKey)).AdvancesFrom c fun _ => true :=
    advancesFrom_advance (by simpa [Token.isEnd, hkind] using hne) fun _ => .pure rfl
  split
  · exact hread (by decide)
  · exact hread (by decide)
  · exact hread (by decide)
  · exact Advances.unexpected c

theorem progresses_property : (property inner).Progresses := by
  refine progresses_propertyKey.gain fun key => .peek fun token => ?_
  split
  · exact progresses_propertyKey.follow fun _ =>
      (progresses_functionParts h (progresses_accessorParameters _)).follow fun _ => .pure rfl
  · exact (progresses_expect _).follow fun _ => (h.assignment false).follow fun _ => .pure rfl

theorem advances_propertyItem : (propertyItem inner).Advances Option.isSome :=
  .ifEat (.pure rfl) ((progresses_property h).gain fun _ => (follows_itemEnd _).follow fun _ =>
    .pure rfl)

theorem advancesFrom_array {c : Cursor} (hend : c.token.isEnd = false) :
    (array inner).AdvancesFrom c fun _ => true :=
  advancesFrom_advance hend fun _ => (advances_element h).many.follow fun _ => .pure rfl

theorem advancesFrom_object {c : Cursor} (hend : c.token.isEnd = false) :
    (object inner).AdvancesFrom c fun _ => true :=
  advancesFrom_advance hend fun _ => (advances_propertyItem h).many.follow fun _ => .pure rfl

omit h in
/-- A slash that is read once more leaves the cursor where it is; the regular expression that it
begins is read then. -/
theorem progresses_regex : regex.Progresses := by
  intro c x c' hok
  obtain ⟨_, r, hrescan, hliteral⟩ := bind_eq_ok.mp hok
  have hregex := rescanRegex_eq_ok.mp hrescan
  obtain ⟨n, -, htoken, hinput, -⟩ := Cursor.asRegex_eq_ok.mp hregex
  have hend : r.token.isEnd = false := by rw [htoken]; rfl
  have hread : (literal .regex).AdvancesFrom r fun _ => true :=
    advancesFrom_advance hend fun _ => .pure rfl
  obtain ⟨hmoves, hshorter⟩ := hread x c' hliteral
  exact ⟨.head (.regex hregex) hmoves, fun _ => hinput ▸ hshorter rfl⟩

omit h in
theorem follows_functionName : functionName.Follows :=
  .peek fun _ => .ite (.pure rfl) progresses_identifier.item.weaken

theorem progresses_functionExpression : (functionExpression inner).Progresses :=
  follows_advance.follow fun _ => follows_functionName.follow fun _ =>
    (progresses_functionParts h progresses_parameters).gain fun _ => .pure rfl

theorem progresses_paren : (paren inner).Progresses :=
  follows_advance.follow fun _ => (progresses_expression h _).gain fun _ =>
    (progresses_expect _).weaken.follow fun _ => .pure rfl

theorem progresses_primary : (primary inner).Progresses := by
  refine .ofToken fun c => ?_
  generalize hkind : c.token.kind = kind
  have hend (hne : kind ≠ .endOfText) : c.token.isEnd = false := by
    simpa [Token.isEnd, hkind] using hne
  have hliteral (kind : LiteralKind) (hend : c.token.isEnd = false) :
      (literal kind).AdvancesFrom c fun _ => true :=
    advancesFrom_advance hend fun _ => .pure rfl
  split
  · exact hliteral _ (hend (by decide))
  · exact hliteral _ (hend (by decide))
  · exact advancesFrom_advance (hend (by decide)) fun _ => .pure rfl
  · exact hliteral _ (hend (by decide))
  · exact hliteral _ (hend (by decide))
  · exact hliteral _ (hend (by decide))
  · exact progresses_functionExpression h c
  · exact (progresses_identifier.gain fun _ => .pure rfl) c
  · exact progresses_regex c
  · exact progresses_regex c
  · exact advancesFrom_array h (hend (by decide))
  · exact advancesFrom_object h (hend (by decide))
  · exact progresses_paren h c
  · exact Advances.unexpected c

/-! ### Operators -/

theorem progresses_member (object : Expression) : (member inner object).Progresses :=
  .ifEat (.peek fun _ => .ite (follows_advance.follow fun _ => .pure rfl) .unexpected)
    ((progresses_expect _).gain fun _ => (progresses_expression h _).follow fun _ =>
      (progresses_expect _).follow fun _ => .pure rfl)

theorem progresses_suffix (callee : Expression) : (suffix inner callee).Progresses :=
  .peek fun _ => .ite ((progresses_arguments h).gain fun _ => .pure rfl)
    (progresses_member h callee)

omit h in
theorem follows_chain {more : Token → Bool} {link : Expression → Parser Expression}
    (hlink : ∀ base, (link base).Progresses) (links : Nat) (base : Expression) :
    (chain more link base links).Follows := by
  induction links generalizing base with
  | zero => exact .peek fun _ => .ite .fail (.pure rfl)
  | succ links ih => exact .peek fun _ => .ite ((hlink base).follow fun base => ih base) (.pure rfl)

theorem progresses_newExpression : (newExpression inner).Progresses := by
  have hoperand : (newOperand inner).Progresses :=
    .peek fun _ => .ite h.newExpression (progresses_primary h)
  have harguments (pos : Position) (callee : Expression) :
      (newArguments inner pos callee).Follows :=
    .peek fun _ => .ite ((progresses_arguments h).gain fun _ => .pure rfl) (.pure rfl)
  exact follows_advance.follow fun _ => hoperand.gain fun base =>
    (follows_chain (progresses_member h) _ base).follow fun callee => harguments _ callee

theorem progresses_leftHandSide : (leftHandSide inner).Progresses := by
  have hbase : (callOperand inner).Progresses :=
    .peek fun _ => .ite (progresses_newExpression h) (progresses_primary h)
  exact hbase.gain fun base => follows_chain (progresses_suffix h) _ base

omit h in
theorem follows_postfixRest (argument : Expression) : (postfixRest argument).Follows := by
  refine .peek fun token => ?_
  split
  · exact .ite (follows_advance.follow fun _ => .pure rfl) .fail
  · exact .pure rfl

theorem progresses_unary : (unary inner).Progresses := by
  refine .peek fun token => ?_
  split
  · exact follows_advance.follow fun _ => h.unary.gain fun _ => .pure rfl
  · exact follows_advance.follow fun _ => h.unary.gain fun _ => .ite (.pure rfl) .throw
  · exact (progresses_leftHandSide h).gain fun argument => follows_postfixRest argument

theorem follows_binaryRest (noIn : Bool) (least links : Nat) (left : Expression) :
    (binaryRest inner noIn least links left).Follows := by
  induction hn : operatorsLeft least links using Nat.strongRecOn generalizing least links left with
  | ind n ih =>
    subst hn
    rw [binaryRest]
    refine .peek fun token => ?_
    split
    · exact .pure rfl
    · next op _ =>
      split
      · exact .pure rfl
      · next hleast =>
        have htight : least ≤ op.precedence := Nat.le_of_not_lt hleast
        cases links with
        | zero => exact .fail
        | succ links =>
          exact follows_advance.follow fun _ => (progresses_unary h).follow fun operand =>
            (ih _ (operatorsLeft_right op htight _) _ _ operand rfl).follow fun right =>
              ih _ (operatorsLeft_links least links) _ _ _ rfl

theorem progresses_binary (noIn : Bool) : (binary inner noIn).Progresses :=
  (progresses_unary h).gain fun left => follows_binaryRest h noIn 1 maxChain left

theorem progresses_assignment (noIn : Bool) : (assignment inner noIn).Progresses := by
  have hvalue (noIn : Bool) : (inner.assignment noIn).Follows := (h.assignment noIn).weaken
  have hrest (test : Expression) : (conditionalRest inner noIn test).Follows :=
    .ifEat ((hvalue _).follow fun _ => (progresses_expect _).weaken.follow fun _ =>
      (hvalue _).follow fun _ => .pure rfl) (.pure rfl)
  refine ((progresses_binary h noIn).gain fun test => hrest test).gain fun left =>
    .peek fun token => ?_
  split
  · exact .pure rfl
  · exact .ite (follows_advance.follow fun _ => (hvalue _).follow fun _ => .pure rfl) .fail

/-! ### Statements -/

theorem progresses_declarator (noIn : Bool) : (declarator inner noIn).Progresses :=
  progresses_identifier.gain fun _ => .peek fun _ => .ite
    (follows_advance.follow fun _ => (h.assignment noIn).gain fun _ => .pure rfl) (.pure rfl)

theorem progresses_declarations : (declarations inner).Progresses :=
  follows_advance.follow fun _ => (progresses_declarator h false).separated.gain fun _ =>
    follows_semicolon.follow fun _ => .pure rfl

theorem progresses_tested : (tested inner).Progresses :=
  follows_advance.follow fun _ => (progresses_parenthesized h).gain fun _ => .pure rfl

theorem progresses_ifElse : (ifElse inner).Progresses := by
  have helse : (elseBranch inner).Follows := .ifEat h.statement.item.weaken (.pure rfl)
  exact (progresses_tested h).gain fun _ => h.statement.gain fun _ => helse.follow fun _ =>
    .pure rfl

theorem progresses_doWhile : (doWhile inner).Progresses :=
  follows_advance.follow fun _ => h.statement.gain fun _ => (progresses_expect _).gain fun _ =>
    (progresses_parenthesized h).gain fun _ => (follows_eat _).follow fun _ => .pure rfl

theorem progresses_whileDo : (whileDo inner).Progresses :=
  (progresses_tested h).gain fun _ => h.statement.gain fun _ => .pure rfl

theorem follows_expressionBefore (close : String) : (expressionBefore inner close).Follows :=
  .peek fun _ => .ite (.pure rfl) (progresses_expression h _).item.weaken

theorem follows_forHead : (forHead inner).Follows := by
  have hinit : (forInit inner).Follows :=
    .peek fun _ => .ite (.pure rfl) (.ite
      (follows_advance.follow fun _ => (progresses_declarator h true).separated.gain fun _ =>
        .peek fun _ => .pure rfl)
      ((progresses_expression h true).gain fun _ => .peek fun _ => .ite .fail (.pure rfl)))
  refine hinit.follow fun init => ?_
  unfold forRest
  split
  · exact (progresses_expect _).gain fun _ => (progresses_expression h _).gain fun _ => .pure rfl
  · exact (progresses_expect _).gain fun _ => (follows_expressionBefore h _).follow fun _ =>
      (progresses_expect _).gain fun _ => (follows_expressionBefore h _).follow fun _ => .pure rfl

theorem progresses_forLoop : (forLoop inner).Progresses :=
  follows_advance.follow fun _ => (progresses_expect _).gain fun _ =>
    (follows_forHead h).follow fun _ => (progresses_expect _).gain fun _ =>
      h.statement.gain fun _ => .pure rfl

omit h in
theorem advancesFrom_jump {c : Cursor} (hend : c.token.isEnd = false) (kind : JumpKind) :
    (jump kind).AdvancesFrom c fun _ => true := by
  have hlabel : jumpLabel.Follows :=
    .peek fun _ => .ite progresses_identifier.item.weaken (.pure rfl)
  exact advancesFrom_advance hend fun _ => hlabel.follow fun _ => follows_semicolon.follow fun _ =>
    .pure rfl

theorem advancesFrom_returnValue {c : Cursor} (hend : c.token.isEnd = false) :
    (returnValue inner).AdvancesFrom c fun _ => true := by
  have hvalue : (returned inner).Follows :=
    .peek fun _ => .ite (.pure rfl) (progresses_expression h _).item.weaken
  exact advancesFrom_advance hend fun _ => hvalue.follow fun _ => follows_semicolon.follow fun _ =>
    .pure rfl

theorem progresses_withObject : (withObject inner).Progresses :=
  (progresses_tested h).gain fun _ => h.statement.gain fun _ => .pure rfl

theorem progresses_clauseBody : (clauseBody inner).Progresses :=
  (progresses_expect _).gain fun _ => follows_statementsUntil h _

theorem advances_caseClause : (caseClause inner).Advances Option.isSome :=
  .ifEat ((progresses_expression h _).gain fun _ => (progresses_clauseBody h).gain fun _ =>
    .pure rfl) (.pure rfl)

theorem follows_caseClauses : (caseClauses inner).Follows :=
  (advances_caseClause h).many

theorem follows_defaultClauses : (defaultClauses inner).Follows :=
  .ifEat ((progresses_clauseBody h).gain fun _ => (follows_caseClauses h).follow fun _ => .pure rfl)
    (.pure rfl)

theorem progresses_switch : (switch inner).Progresses :=
  (progresses_tested h).gain fun _ => (progresses_expect _).gain fun _ =>
    (follows_caseClauses h).follow fun _ => (follows_defaultClauses h).follow fun _ =>
      (progresses_expect _).gain fun _ => .pure rfl

theorem progresses_throwValue : (throwValue inner).Progresses :=
  follows_advance.follow fun _ => .peek fun _ => .ite .fail
    ((progresses_expression h _).gain fun _ => follows_semicolon.follow fun _ => .pure rfl)

theorem progresses_tryCatch : (tryCatch inner).Progresses := by
  have hcatch : (catchClause inner).Follows :=
    .ifEat ((progresses_expect _).gain fun _ => progresses_identifier.gain fun _ =>
      (progresses_expect _).gain fun _ => (progresses_block h).gain fun _ => .pure rfl) (.pure rfl)
  have hfinally : (finalizer inner).Follows :=
    .ifEat (progresses_block h).item.weaken (.pure rfl)
  exact follows_advance.follow fun _ => (progresses_block h).gain fun _ => hcatch.follow fun _ =>
    hfinally.follow fun _ => .ite .unexpected (.pure rfl)

omit h in
theorem advancesFrom_debugger {c : Cursor} (hend : c.token.isEnd = false) :
    debugger.AdvancesFrom c fun _ => true :=
  advancesFrom_advance hend fun _ => follows_semicolon.follow fun _ => .pure rfl

theorem progresses_functionDeclaration : (functionDeclaration inner).Progresses :=
  follows_advance.follow fun _ => .peek fun _ => .ite .fail
    (progresses_identifier.gain fun _ =>
      (progresses_functionParts h progresses_parameters).gain fun _ => .pure rfl)

theorem progresses_expressionStatement : (expressionStatement inner).Progresses := by
  refine (progresses_expression h _).gain fun expression => .peek fun token => ?_
  split
  · exact follows_advance.follow fun _ => h.statement.gain fun _ => .pure rfl
  · exact follows_semicolon.follow fun _ => .pure rfl

theorem progresses_statement : (statement inner).Progresses := by
  refine .ofToken fun c => ?_
  generalize hkind : c.token.kind = kind
  have hend (hne : kind ≠ .endOfText) : c.token.isEnd = false := by
    simpa [Token.isEnd, hkind] using hne
  split
  · exact ((progresses_block h).gain fun _ => .pure rfl) c
  · exact advancesFrom_advance (hend (by decide)) fun _ => .pure rfl
  · exact progresses_declarations h c
  · exact progresses_ifElse h c
  · exact progresses_doWhile h c
  · exact progresses_whileDo h c
  · exact progresses_forLoop h c
  · exact advancesFrom_jump (hend (by decide)) _
  · exact advancesFrom_jump (hend (by decide)) _
  · exact advancesFrom_returnValue h (hend (by decide))
  · exact progresses_withObject h c
  · exact progresses_switch h c
  · exact progresses_throwValue h c
  · exact progresses_tryCatch h c
  · exact advancesFrom_debugger (hend (by decide))
  · exact progresses_functionDeclaration h c
  · exact progresses_expressionStatement h c

end Grammar

/-- On every level of nesting there is progress. -/
theorem Inner.Progresses.ofDepth (depth : Nat) : (Inner.ofDepth depth).Progresses := by
  induction depth with
  | zero => exact ⟨.fail, fun _ => .fail, .fail, .fail⟩
  | succ depth ih =>
    exact ⟨Grammar.progresses_statement ih, Grammar.progresses_assignment ih,
      Grammar.progresses_unary ih, Grammar.progresses_newExpression ih⟩

end EcmaPress

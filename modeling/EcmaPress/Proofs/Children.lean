import EcmaPress.Grammar.Program
import EcmaPress.Proofs.Ensures
import EcmaPress.Tree.Node

/-!
# What the parsers of a level put below a node

A statement, and an expression without operators, hold nothing directly below them but what the next
inner level has read, the expressions and functions that are made of that, and handlers. A property
that all of these have is shown here to stand below everything that such a parser answers, once for
all properties.
-/

namespace EcmaPress

open TreeNode

/-- What the next inner level answers makes nodes with the property `P`: statements have the property
`S`, which is all that functions and handlers need of their bodies. -/
structure Inner.Supplies (inner : Inner) (S : Statement → Prop) (P : TreeNode → Prop) : Prop where
  statement : inner.statement.Ensures S
  assignment : ∀ noIn, (inner.assignment noIn).Ensures fun x => P (.expression x)
  expression : ∀ noIn, (Grammar.expression inner noIn).Ensures fun x => P (.expression x)
  ofStatement : ∀ s, S s → P (.statement s)
  ofBody : ∀ pos id params body, (∀ s ∈ body, S s) → P (.function (.mk pos id params body))
  ofHandler : ∀ param body, (∀ s ∈ body, S s) → P (.handler (.mk param body))

attribute [local simp] Expression.children Statement.children

namespace Grammar

open EcmaPress.Parser EcmaPress.Parser.Ensures

variable {inner : Inner} {S : Statement → Prop} {P : TreeNode → Prop} (h : inner.Supplies S P)

include h

/-! ### Expressions -/

theorem below_parenthesized : (parenthesized inner).Ensures fun x => P (.expression x) :=
  andThen fun _ => bind (h.expression false) fun _ hx => andThen fun _ => .pure hx

theorem below_statementsUntil (stop : Token → Bool) :
    (statementsUntil inner stop).Ensures fun xs => ∀ s ∈ xs, S s :=
  many (andThen fun _ => ite none (ite unexpected h.statement.some))

theorem below_block : (block inner).Ensures fun xs => ∀ s ∈ xs, S s :=
  andThen fun _ => bind (below_statementsUntil h _) fun _ hbody => andThen fun _ => .pure hbody

theorem below_functionParts (params : Parser (List Identifier)) :
    (functionParts inner params).Ensures fun parts => ∀ s ∈ parts.2, S s :=
  andThen fun _ => bind (below_block h) fun _ hbody => .pure hbody

omit h in
theorem forall_mem_statements (hS : ∀ s, S s → P (.statement s)) {body : List Statement}
    (hbody : ∀ s ∈ body, S s) : ∀ n ∈ body.map TreeNode.statement, P n :=
  List.forall_mem_map.mpr fun s hs => hS s (hbody s hs)

theorem below_arguments : (arguments inner).Ensures fun xs => ∀ x ∈ xs, P (.expression x) :=
  inParens (h.assignment false)

theorem below_array : (array inner).Ensures fun x => ∀ n ∈ x.children, P n := by
  refine andThen fun _ => bind (many (P := fun x => ∀ n ∈ x.children, P n) ?_) fun xs hxs =>
    .pure (List.forall_mem_flatMap.mpr hxs)
  refine andThen fun _ => ite none (andThen fun _ => ite (.pure ?_) ?_)
  · rintro _ ⟨⟩
    exact nofun
  · refine bind (h.assignment false) fun x hx => andThen fun _ => .pure ?_
    rintro _ ⟨⟩
    exact List.forall_mem_singleton.mpr hx

theorem below_property : (property inner).Ensures fun p => ∀ n ∈ p.children, P n := by
  refine andThen fun key => andThen fun token => ?_
  split
  · refine andThen fun name => bind (below_functionParts h _) fun parts hbody => .pure ?_
    exact List.forall_mem_singleton.mpr (h.ofBody _ _ _ _ hbody)
  · refine andThen fun _ => bind (h.assignment false) fun x hx => .pure ?_
    exact List.forall_mem_singleton.mpr hx

theorem below_object : (object inner).Ensures fun x => ∀ n ∈ x.children, P n := by
  refine andThen fun _ => bind (many (P := fun p => ∀ n ∈ p.children, P n) ?_) fun xs hxs =>
    .pure (List.forall_mem_flatMap.mpr hxs)
  refine andThen fun _ => ite none (bind (below_property h) fun x hx => andThen fun _ => .pure ?_)
  rintro _ ⟨⟩
  exact hx

omit h in
theorem below_literal (kind : LiteralKind) : (literal kind).Ensures fun x => ∀ n ∈ x.children, P n :=
  andThen fun _ => .pure nofun

theorem below_functionExpression :
    (functionExpression inner).Ensures fun x => ∀ n ∈ x.children, P n :=
  andThen fun _ => andThen fun _ => bind (below_functionParts h _) fun _ hbody =>
    .pure (List.forall_mem_singleton.mpr (h.ofBody _ _ _ _ hbody))

theorem below_paren : (paren inner).Ensures fun x => ∀ n ∈ x.children, P n :=
  andThen fun _ => bind (h.expression false) fun _ hx => andThen fun _ =>
    .pure (List.forall_mem_singleton.mpr hx)

/-- What stands directly below an expression without operators. -/
theorem below_primary : (primary inner).Ensures fun x => ∀ n ∈ x.children, P n := by
  refine andThen fun token => ?_
  split
  · exact below_literal _
  · exact below_literal _
  · exact andThen fun _ => .pure nofun
  · exact below_literal _
  · exact below_literal _
  · exact below_literal _
  · exact below_functionExpression h
  · exact andThen fun _ => .pure nofun
  · exact andThen fun _ => below_literal _
  · exact andThen fun _ => below_literal _
  · exact below_array h
  · exact below_object h
  · exact below_paren h
  · exact unexpected

/-! ### Statements -/

theorem below_declarator (noIn : Bool) :
    (declarator inner noIn).Ensures fun d => ∀ n ∈ d.children, P n := by
  refine andThen fun id => andThen fun _ => ite ?_ (.pure nofun)
  exact andThen fun _ => bind (h.assignment noIn) fun x hx =>
    .pure (List.forall_mem_singleton.mpr hx)

theorem below_tested : (tested inner).Ensures fun head => P (.expression head.2) :=
  andThen fun _ => bind (below_parenthesized h) fun _ hx => .pure hx

theorem below_body : inner.statement.Ensures fun s => P (.statement s) :=
  h.statement.imp h.ofStatement

theorem below_ifElse : (ifElse inner).Ensures fun s => ∀ n ∈ s.children, P n := by
  refine bind (below_tested h) fun head htest => bind (below_body h) fun consequent hthen =>
    bind (andThen fun _ => ite (below_body h).some none) fun alternate helse => .pure ?_
  simpa using ⟨htest, hthen, helse⟩

theorem below_doWhile : (doWhile inner).Ensures fun s => ∀ n ∈ s.children, P n := by
  refine andThen fun _ => bind (below_body h) fun body hbody => andThen fun _ =>
    bind (below_parenthesized h) fun test htest => andThen fun _ => .pure ?_
  simpa using ⟨hbody, htest⟩

theorem below_whileDo : (whileDo inner).Ensures fun s => ∀ n ∈ s.children, P n := by
  refine bind (below_tested h) fun head htest => bind (below_body h) fun body hbody => .pure ?_
  simpa using ⟨hbody, htest⟩

theorem below_declarations : (declarations inner).Ensures fun s => ∀ n ∈ s.children, P n :=
  andThen fun _ => bind (separated (below_declarator h false)) fun _ hxs => andThen fun _ =>
    .pure (List.forall_mem_flatMap.mpr hxs)

theorem below_forInit :
    (forInit inner).Ensures fun head => ∀ init ∈ head.1, ∀ n ∈ init.children, P n := by
  refine andThen fun _ => ite (.pure nofun) (ite ?_ ?_)
  · refine andThen fun _ => bind (separated (below_declarator h true)) fun xs hxs =>
      andThen fun _ => .pure ?_
    rintro _ ⟨⟩
    exact List.forall_mem_flatMap.mpr hxs
  · refine bind (h.expression true) fun x hx => andThen fun _ => ite fail (.pure ?_)
    rintro _ ⟨⟩
    exact List.forall_mem_singleton.mpr hx

theorem below_expressionBefore (close : String) :
    (expressionBefore inner close).Ensures fun part => ∀ x ∈ part, P (.expression x) :=
  andThen fun _ => ite none (h.expression false).some

theorem below_forLoop : (forLoop inner).Ensures fun s => ∀ n ∈ s.children, P n := by
  refine andThen fun keyword => andThen fun _ => bind (P := fun head => ∀ body : Statement,
    P (.statement body) → ∀ n ∈ (ForHead.statement keyword.pos body head).children, P n)
      (bind (below_forInit h) fun init hinit => ?_) fun head hhead => andThen fun _ =>
        bind (below_body h) fun body hbody => .pure (hhead body hbody)
  unfold forRest
  split
  · next left =>
    refine andThen fun _ => bind (h.expression false) fun right hright => .pure fun body hbody => ?_
    have hleft := hinit left rfl
    refine List.forall_mem_append.mpr ⟨hleft, ?_⟩
    simpa using ⟨hright, hbody⟩
  · next init _ _ =>
    refine andThen fun _ => bind (below_expressionBefore h ";") fun test htest =>
      andThen fun _ => bind (below_expressionBefore h ")") fun update hupdate =>
        .pure fun body hbody => ?_
    have hbefore : ∀ n ∈ init.toList.flatMap ForInit.children, P n :=
      List.forall_mem_flatMap.mpr fun x hx => hinit x (Option.mem_toList.mp hx)
    simp only [ForHead.statement, Statement.children, List.forall_mem_append]
    refine ⟨⟨⟨hbefore, ?_⟩, ?_⟩, List.forall_mem_singleton.mpr hbody⟩
    · simpa using htest
    · simpa using hupdate

omit h in
theorem below_jump (kind : JumpKind) : (jump kind).Ensures fun s => ∀ n ∈ s.children, P n :=
  andThen fun _ => andThen fun _ => andThen fun _ => .pure nofun

theorem below_returnValue : (returnValue inner).Ensures fun s => ∀ n ∈ s.children, P n := by
  refine andThen fun _ => bind (andThen fun _ => ite none (h.expression false).some)
    fun argument hargument => andThen fun _ => .pure ?_
  simpa using hargument

theorem below_withObject : (withObject inner).Ensures fun s => ∀ n ∈ s.children, P n := by
  refine bind (below_tested h) fun head hobject => bind (below_body h) fun body hbody => .pure ?_
  simpa using ⟨hobject, hbody⟩

theorem below_clauseBody : (clauseBody inner).Ensures fun xs => ∀ s ∈ xs, S s :=
  andThen fun _ => below_statementsUntil h _

theorem below_caseClauses : (caseClauses inner).Ensures fun clauses =>
    ∀ clause ∈ clauses, ∀ n ∈ clause.children, P n := by
  refine many (andThen fun _ => ite (bind (h.expression false) fun test htest =>
    bind (below_clauseBody h) fun body hbody => .pure ?_) none)
  rintro _ ⟨⟩
  exact List.forall_mem_cons.mpr ⟨htest, forall_mem_statements h.ofStatement hbody⟩

theorem below_defaultClauses : (defaultClauses inner).Ensures fun clauses =>
    ∀ clause ∈ clauses, ∀ n ∈ clause.children, P n := by
  refine andThen fun _ => ite ?_ (.pure fun _ hclause => nomatch hclause)
  refine bind (below_clauseBody h) fun body hbody => bind (below_caseClauses h)
    fun clauses hclauses => .pure ?_
  exact List.forall_mem_cons.mpr ⟨forall_mem_statements h.ofStatement hbody, hclauses⟩

theorem below_switch : (switch inner).Ensures fun s => ∀ n ∈ s.children, P n := by
  refine bind (below_tested h) fun head hdiscriminant => andThen fun _ =>
    bind (below_caseClauses h) fun before hbefore => bind (below_defaultClauses h)
      fun after hafter => andThen fun _ => .pure ?_
  exact List.forall_mem_cons.mpr ⟨hdiscriminant,
    List.forall_mem_flatMap.mpr (List.forall_mem_append.mpr ⟨hbefore, hafter⟩)⟩

theorem below_throwValue : (throwValue inner).Ensures fun s => ∀ n ∈ s.children, P n :=
  andThen fun _ => andThen fun _ => ite fail (bind (h.expression false) fun _ hx =>
    andThen fun _ => .pure (List.forall_mem_singleton.mpr hx))

theorem below_catchClause :
    (catchClause inner).Ensures fun part => ∀ clause ∈ part, P (.handler clause) := by
  refine andThen fun _ => ite ?_ none
  refine andThen fun _ => andThen fun param => andThen fun _ =>
    bind (below_block h) fun body hbody => .pure ?_
  rintro _ ⟨⟩
  exact h.ofHandler _ _ hbody

theorem below_tryCatch : (tryCatch inner).Ensures fun s => ∀ n ∈ s.children, P n := by
  refine andThen fun _ => bind (below_block h) fun body hbody =>
    bind (below_catchClause h) fun handler hhandler =>
    bind (andThen fun _ => ite (below_block h).some none) fun finalizer hfinalizer =>
      ite unexpected (.pure ?_)
  have hlast : ∀ s ∈ finalizer.getD [], S s := by
    cases finalizer with
    | none => exact nofun
    | some xs => exact hfinalizer xs rfl
  simp only [Statement.children, List.forall_mem_append]
  exact ⟨⟨forall_mem_statements h.ofStatement hbody, by simpa using hhandler⟩,
    forall_mem_statements h.ofStatement hlast⟩

theorem below_functionDeclaration :
    (functionDeclaration inner).Ensures fun s => ∀ n ∈ s.children, P n :=
  andThen fun _ => andThen fun _ => ite fail (andThen fun _ =>
    bind (below_functionParts h _) fun _ hbody =>
      .pure (List.forall_mem_singleton.mpr (h.ofBody _ _ _ _ hbody)))

theorem below_expressionStatement :
    (expressionStatement inner).Ensures fun s => ∀ n ∈ s.children, P n := by
  refine bind (h.expression false) fun x hx => andThen fun token => ?_
  split
  · exact andThen fun _ => bind (below_body h) fun body hbody =>
      .pure (List.forall_mem_singleton.mpr hbody)
  · exact andThen fun _ => .pure (List.forall_mem_singleton.mpr hx)

/-- What stands directly below a statement. -/
theorem below_statement : (statement inner).Ensures fun s => ∀ n ∈ s.children, P n := by
  refine andThen fun token => ?_
  split
  · exact bind (below_block h) fun _ hbody => .pure (forall_mem_statements h.ofStatement hbody)
  · exact andThen fun _ => .pure nofun
  · exact below_declarations h
  · exact below_ifElse h
  · exact below_doWhile h
  · exact below_whileDo h
  · exact below_forLoop h
  · exact below_jump _
  · exact below_jump _
  · exact below_returnValue h
  · exact below_withObject h
  · exact below_switch h
  · exact below_throwValue h
  · exact below_tryCatch h
  · exact andThen fun _ => andThen fun _ => .pure nofun
  · exact below_functionDeclaration h
  · exact below_expressionStatement h

end Grammar
end EcmaPress

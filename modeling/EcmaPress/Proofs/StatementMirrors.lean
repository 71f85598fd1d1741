import EcmaPress.Grammar.Program
import EcmaPress.Proofs.ExpressionMirrors
import EcmaPress.Proofs.Loops
import EcmaPress.Proofs.Relabelled

/-!
# The grammar looks at tokens only

Every parser of the grammar mirrors itself: texts with the same tokens give the same tree up to
places, and a text that cannot be read on behind one of the tokens of a program is no program.
-/

namespace EcmaPress

open EcmaPress.Parser

namespace Grammar

variable {inner : Inner} (h : inner.Mirrors)

include h

/-! ### Declarations and branches -/

theorem mirrors_declarator (noIn : Bool) (d : Cursor) :
    Mirrors (Declarator.relabel .bare) (declarator inner noIn) (declarator inner noIn) d := by
  refine .bind .identifier fun x y m _ hid => .peek fun pos => .ite .rfl (fun his => ?_) fun _ => ?_
  · exact .bind (.advance (Token.is_isEnd his)) fun _ _ n _ _ => .bind (h.assignment noIn n)
      fun _ _ _ _ hx => .pure (by simp [Declarator.relabel, Relabeling.bare_identifier hid, hx])
  · exact .pure (by simp [Declarator.relabel, Relabeling.bare_identifier hid])

theorem mirrors_declarations {d : Cursor} (hend : d.token.isEnd = false) :
    Mirrors (Statement.relabel .bare) (declarations inner) (declarations inner) d :=
  .bind (.advance hend) fun _ _ m _ _ => .bind (.separated (mirrors_declarator h false) m)
    fun _ _ n _ hxs => .bind .semicolon fun _ _ _ _ _ =>
      .pure (by simp [Statement.relabel, relabelDeclarators_eq, hxs])

theorem mirrors_tested {d : Cursor} (hend : d.token.isEnd = false) :
    Mirrors (fun parts => parts.2.relabel .bare) (tested inner) (tested inner) d :=
  .bind (.advance hend) fun _ _ m _ _ => .bind (mirrors_parenthesized h m) fun _ _ _ _ hx => .pure hx

theorem mirrors_elseBranch (d : Cursor) :
    Mirrors (Option.map (Statement.relabel .bare)) (elseBranch inner) (elseBranch inner) d := by
  refine .bind .eat fun x y m _ hxy => ?_
  obtain rfl : x = y := hxy
  exact .ite .rfl (fun _ => (h.statement m).some) fun _ => .pure rfl

theorem mirrors_ifElse {d : Cursor} (hend : d.token.isEnd = false) :
    Mirrors (Statement.relabel .bare) (ifElse inner) (ifElse inner) d := by
  refine .bind (mirrors_tested h hend) fun _ _ m _ htest => .bind (h.statement m) fun _ _ n _ hthen =>
    .bind (mirrors_elseBranch h n) fun x y _ _ helse => .pure ?_
  cases x with
  | none =>
    obtain rfl : y = none := Option.map_eq_none_iff.mp helse.symm
    simp [Statement.relabel, htest, hthen]
  | some x =>
    obtain ⟨y, rfl, hxy⟩ := Option.map_eq_some_iff.mp (helse.symm.trans (Option.map_some ..))
    simp [Statement.relabel, htest, hthen, hxy]

/-! ### Loops -/

theorem mirrors_doWhile {d : Cursor} (hend : d.token.isEnd = false) :
    Mirrors (Statement.relabel .bare) (doWhile inner) (doWhile inner) d :=
  .bind (.advance hend) fun _ _ m _ _ => .bind (h.statement m) fun _ _ n _ hbody =>
    .bind .expect fun _ _ k _ _ => .bind (mirrors_parenthesized h k) fun _ _ _ _ htest =>
      .bind .eat fun _ _ _ _ _ => .pure (by simp [Statement.relabel, hbody, htest])

theorem mirrors_whileDo {d : Cursor} (hend : d.token.isEnd = false) :
    Mirrors (Statement.relabel .bare) (whileDo inner) (whileDo inner) d :=
  .bind (mirrors_tested h hend) fun _ _ m _ htest => .bind (h.statement m) fun _ _ _ _ hbody =>
    .pure (by simp [Statement.relabel, hbody, htest])

theorem mirrors_forInit (d : Cursor) :
    Mirrors (Prod.map (Option.map (ForInit.relabel .bare)) id) (forInit inner) (forInit inner) d := by
  refine .peek fun pos => .ite .rfl (fun _ => .pure rfl) fun _ => .ite .rfl (fun his => ?_) fun _ => ?_
  · refine .bind (.advance (Token.is_isEnd his)) fun _ _ m _ _ =>
      .bind (.separated (mirrors_declarator h true) m) fun xs ys n _ hxs => .peek fun _ => .pure ?_
    have hlength := congrArg List.length hxs
    rw [List.length_map, List.length_map] at hlength
    simp [ForInit.relabel, relabelDeclarators_eq, hxs, hlength]
  · refine .bind (mirrors_expression h true d) fun _ _ n _ hx => .peek fun _ => ?_
    exact .ite (by rw [isReference_eq hx]; rfl) (fun _ => .fail) fun _ =>
      .pure (by simp [ForInit.relabel, hx])

theorem mirrors_expressionBefore (close : String) (d : Cursor) :
    Mirrors (Option.map (Expression.relabel .bare)) (expressionBefore inner close)
      (expressionBefore inner close) d :=
  .peek fun _ => .ite .rfl (fun _ => .pure rfl) fun _ => (mirrors_expression h false d).some

theorem mirrors_forRest {init init' : Option ForInit × Bool}
    (hinit : init.map (Option.map (ForInit.relabel .bare)) id =
      init'.map (Option.map (ForInit.relabel .bare)) id) (d : Cursor) :
    Mirrors (ForHead.relabel .bare) (forRest inner init) (forRest inner init') d := by
  obtain ⟨left, isIn⟩ := init
  obtain ⟨left', isIn'⟩ := init'
  obtain ⟨hleft, rfl⟩ : left.map (ForInit.relabel .bare) = left'.map (ForInit.relabel .bare) ∧
    isIn = isIn' := Prod.ext_iff.mp hinit
  have hloop : Mirrors (ForHead.relabel .bare)
      (expect ";" >>= fun _ => expressionBefore inner ";" >>= fun test => expect ";" >>= fun _ =>
        expressionBefore inner ")" >>= fun update => pure (.loop left test update))
      (expect ";" >>= fun _ => expressionBefore inner ";" >>= fun test => expect ";" >>= fun _ =>
        expressionBefore inner ")" >>= fun update => pure (.loop left' test update)) d :=
    .bind .expect fun _ _ m _ _ => .bind (mirrors_expressionBefore h ";" m) fun _ _ n _ htest =>
      .bind .expect fun _ _ k _ _ => .bind (mirrors_expressionBefore h ")" k) fun _ _ _ _ hupdate =>
        .pure (by simp [ForHead.relabel, hleft, htest, hupdate])
  cases left with
  | none =>
    obtain rfl : left' = none := Option.map_eq_none_iff.mp hleft.symm
    exact hloop
  | some left =>
    obtain ⟨left', rfl, hinits⟩ := Option.map_eq_some_iff.mp (hleft.symm.trans (Option.map_some ..))
    cases isIn with
    | false => exact hloop
    | true =>
      exact .bind .expect fun _ _ m _ _ => .bind (mirrors_expression h false m) fun _ _ _ _ hx =>
        .pure (by simp [ForHead.relabel, hinits, hx])

theorem mirrors_forHead (d : Cursor) :
    Mirrors (ForHead.relabel .bare) (forHead inner) (forHead inner) d :=
  .bind (mirrors_forInit h d) fun _ _ m _ hinit => mirrors_forRest h hinit m

theorem mirrors_forLoop {d : Cursor} (hend : d.token.isEnd = false) :
    Mirrors (Statement.relabel .bare) (forLoop inner) (forLoop inner) d :=
  .bind (.advance hend) fun _ _ _ _ _ => .bind .expect fun _ _ m _ _ =>
    .bind (mirrors_forHead h m) fun _ _ _ _ hhead => .bind .expect fun _ _ n _ _ =>
      .bind (h.statement n) fun _ _ _ _ hbody => .pure (by
        rw [ForHead.statement_relabel, ForHead.statement_relabel, hhead, hbody]; rfl)

/-! ### Jumps -/

omit h in
theorem mirrors_jumpLabel (d : Cursor) :
    Mirrors (Option.map Identifier.name) jumpLabel jumpLabel d :=
  .peek fun _ => .ite .rfl (fun _ => Mirrors.identifier.some) fun _ => .pure rfl

omit h in
theorem mirrors_jump (kind : JumpKind) {d : Cursor} (hend : d.token.isEnd = false) :
    Mirrors (Statement.relabel .bare) (jump kind) (jump kind) d := by
  refine .bind (.advance hend) fun _ _ m _ _ => .bind (mirrors_jumpLabel m) fun x y _ _ hlabel =>
    .bind .semicolon fun _ _ _ _ _ => .pure ?_
  have hlabels : x.map Relabeling.bare.label = y.map Relabeling.bare.label := by
    have hname : Relabeling.bare.label =
      (fun name => (⟨name, .start⟩ : Identifier)) ∘ Identifier.name := rfl
    rw [hname, ← Option.map_map, ← Option.map_map, hlabel]
  simp [Statement.relabel, hlabels]

theorem mirrors_returned (d : Cursor) :
    Mirrors (Option.map (Expression.relabel .bare)) (returned inner) (returned inner) d :=
  .peek fun _ => .ite .rfl (fun _ => .pure rfl) fun _ => (mirrors_expression h false d).some

theorem mirrors_returnValue {d : Cursor} (hend : d.token.isEnd = false) :
    Mirrors (Statement.relabel .bare) (returnValue inner) (returnValue inner) d := by
  refine .bind (.advance hend) fun _ _ m _ _ => .bind (mirrors_returned h m) fun x y _ _ hxy =>
    .bind .semicolon fun _ _ _ _ _ => .pure ?_
  cases x with
  | none =>
    obtain rfl : y = none := Option.map_eq_none_iff.mp hxy.symm
    simp [Statement.relabel]
  | some x =>
    obtain ⟨y, rfl, hvalue⟩ := Option.map_eq_some_iff.mp (hxy.symm.trans (Option.map_some ..))
    simp [Statement.relabel, hvalue]

theorem mirrors_withObject {d : Cursor} (hend : d.token.isEnd = false) :
    Mirrors (Statement.relabel .bare) (withObject inner) (withObject inner) d :=
  .bind (mirrors_tested h hend) fun _ _ m _ hobject => .bind (h.statement m) fun _ _ _ _ hbody =>
    .pure (by simp [Statement.relabel, hbody, hobject])

theorem mirrors_throwValue {d : Cursor} (hend : d.token.isEnd = false) :
    Mirrors (Statement.relabel .bare) (throwValue inner) (throwValue inner) d :=
  .bind (.advance hend) fun _ _ m _ _ => .peek fun _ => .ite .rfl (fun _ => .fail) fun _ =>
    .bind (mirrors_expression h false m) fun _ _ _ _ hx => .bind .semicolon fun _ _ _ _ _ =>
      .pure (by simp [Statement.relabel, hx])

/-! ### Statements with clauses -/

theorem mirrors_clauseBody (d : Cursor) :
    Mirrors (List.map (Statement.relabel .bare)) (clauseBody inner) (clauseBody inner) d :=
  .bind .expect fun _ _ m _ _ => mirrors_statementsUntil h (fun _ _ => rfl) m

theorem mirrors_caseClause (d : Cursor) :
    Mirrors (Option.map (SwitchClause.relabel .bare)) (caseClause inner) (caseClause inner) d := by
  refine .bind .eat fun x y m _ hxy => ?_
  obtain rfl : x = y := hxy
  refine .ite .rfl (fun _ => ?_) fun _ => .pure rfl
  exact .bind (mirrors_expression h false m) fun _ _ n _ htest =>
    .bind (mirrors_clauseBody h n) fun _ _ _ _ hbody =>
      .pure (by simp [SwitchClause.relabel, relabelStatements_eq, htest, hbody])

theorem mirrors_caseClauses (d : Cursor) :
    Mirrors (List.map (SwitchClause.relabel .bare)) (caseClauses inner) (caseClauses inner) d :=
  .many (mirrors_caseClause h) d

theorem mirrors_defaultClauses (d : Cursor) :
    Mirrors (List.map (SwitchClause.relabel .bare)) (defaultClauses inner) (defaultClauses inner) d := by
  refine .bind .eat fun x y m _ hxy => ?_
  obtain rfl : x = y := hxy
  refine .ite .rfl (fun _ => ?_) fun _ => .pure rfl
  exact .bind (mirrors_clauseBody h m) fun _ _ n _ hbody =>
    .bind (mirrors_caseClauses h n) fun _ _ _ _ hafter =>
      .pure (by simp [SwitchClause.relabel, relabelStatements_eq, hbody, hafter])

theorem mirrors_switch {d : Cursor} (hend : d.token.isEnd = false) :
    Mirrors (Statement.relabel .bare) (switch inner) (switch inner) d :=
  .bind (mirrors_tested h hend) fun _ _ _ _ htest => .bind .expect fun _ _ m _ _ =>
    .bind (mirrors_caseClauses h m) fun _ _ n _ hbefore =>
      .bind (mirrors_defaultClauses h n) fun _ _ _ _ hafter => .bind .expect fun _ _ _ _ _ =>
        .pure (by simp [Statement.relabel, relabelClauses_eq, htest, hbefore, hafter])

theorem mirrors_catchClause (d : Cursor) :
    Mirrors (Option.map (CatchClause.relabel .bare)) (catchClause inner) (catchClause inner) d := by
  refine .bind .eat fun x y m _ hxy => ?_
  obtain rfl : x = y := hxy
  refine .ite .rfl (fun _ => ?_) fun _ => .pure rfl
  exact .bind .expect fun _ _ _ _ _ => .bind .identifier fun _ _ _ _ hparam =>
    .bind .expect fun _ _ n _ _ => .bind (mirrors_block h n) fun _ _ _ _ hbody =>
      .pure (by simp [CatchClause.relabel, relabelStatements_eq, Relabeling.bare_identifier hparam, hbody])

theorem mirrors_finalizer (d : Cursor) :
    Mirrors (Option.map (List.map (Statement.relabel .bare))) (finalizer inner) (finalizer inner) d := by
  refine .bind .eat fun x y m _ hxy => ?_
  obtain rfl : x = y := hxy
  exact .ite .rfl (fun _ => (mirrors_block h m).some) fun _ => .pure rfl

theorem mirrors_tryCatch {d : Cursor} (hend : d.token.isEnd = false) :
    Mirrors (Statement.relabel .bare) (tryCatch inner) (tryCatch inner) d := by
  refine .bind (.advance hend) fun _ _ m _ _ => .bind (mirrors_block h m) fun _ _ n _ hbody =>
    .bind (mirrors_catchClause h n) fun x y k _ hhandler =>
      .bind (mirrors_finalizer h k) fun z z' _ _ hfinal => ?_
  have hnone : x.isNone = y.isNone ∧ z.isNone = z'.isNone := by
    constructor
    · simpa using congrArg Option.isNone hhandler
    · simpa using congrArg Option.isNone hfinal
  refine .ite (by rw [hnone.1, hnone.2]) (fun _ => .unexpected) fun _ => .pure ?_
  have hlists : relabelStatements .bare = List.map (Statement.relabel .bare) :=
    funext (relabelStatements_eq _)
  simp [Statement.relabel_tryCatch, hlists, hbody, hhandler, hfinal]

/-! ### Functions and expressions as statements -/

omit h in
theorem mirrors_debugger {d : Cursor} (hend : d.token.isEnd = false) :
    Mirrors (Statement.relabel .bare) debugger debugger d :=
  .bind (.advance hend) fun _ _ _ _ _ => .bind .semicolon fun _ _ _ _ _ =>
    .pure (by simp [Statement.relabel])

theorem mirrors_functionDeclaration {d : Cursor} (hend : d.token.isEnd = false) :
    Mirrors (Statement.relabel .bare) (functionDeclaration inner) (functionDeclaration inner) d := by
  refine .bind (.advance hend) fun _ _ m _ _ => .peek fun _ => .ite .rfl (fun _ => .fail) fun _ => ?_
  refine .bind .identifier fun id id' n _ hid =>
    .bind (mirrors_functionParts h mirrors_parameters n) fun _ _ _ _ hparts => .pure ?_
  have hids : (some id).map Identifier.name = (some id').map Identifier.name := congrArg some hid
  rw [Statement.relabel, Statement.relabel, relabel_function hids hparts]

omit h in
theorem identifier_of_relabel {r : Relabeling} {x : Expression} {id : Identifier}
    (hx : x.relabel r = .identifier id) : ∃ id', x = .identifier id' ∧ r.identifier id' = id := by
  cases x <;> simp_all [Expression.relabel]

theorem mirrors_expressionStatement (d : Cursor) :
    Mirrors (Statement.relabel .bare) (expressionStatement inner) (expressionStatement inner) d := by
  refine .bind (mirrors_expression h false d) fun x y m _ hxy => .peek fun pos => ?_
  rw [Token.is_placed]
  generalize hcolon : m.token.is ":" = colon
  split
  · next id =>
    obtain ⟨id', rfl, hid⟩ := identifier_of_relabel hxy.symm
    have hlabel : Relabeling.bare.label id = Relabeling.bare.label id' := hid.symm
    exact .bind (.advance (Token.is_isEnd hcolon)) fun _ _ n _ _ => .bind (h.statement n)
      fun _ _ _ _ hbody => .pure (by rw [Statement.relabel, Statement.relabel, hbody, hlabel])
  · next hx =>
    split
    · next id =>
      obtain ⟨id', rfl, -⟩ := identifier_of_relabel hxy
      exact absurd rfl (hx id' rfl)
    · exact .bind .semicolon fun _ _ _ _ _ => .pure (by simp [Statement.relabel, hxy])

theorem mirrors_statement (d : Cursor) :
    Mirrors (Statement.relabel .bare) (statement inner) (statement inner) d := by
  refine .peek fun pos => ?_
  rw [Token.kind_placed, Token.text_placed]
  have hend : d.token.kind = .name ∨ d.token.kind = .punct → d.token.isEnd = false := by
    rintro (hkind | hkind) <;> simp [Token.isEnd, hkind]
  split
  · exact .bind (mirrors_block h d) fun _ _ _ _ hxs =>
      .pure (by simp [Statement.relabel, relabelStatements_eq, hxs])
  · next hkind _ => exact .bind (.advance (hend (.inr hkind))) fun _ _ _ _ _ => .pure rfl
  · next hkind _ => exact mirrors_declarations h (hend (.inl hkind))
  · next hkind _ => exact mirrors_ifElse h (hend (.inl hkind))
  · next hkind _ => exact mirrors_doWhile h (hend (.inl hkind))
  · next hkind _ => exact mirrors_whileDo h (hend (.inl hkind))
  · next hkind _ => exact mirrors_forLoop h (hend (.inl hkind))
  · next hkind _ => exact mirrors_jump _ (hend (.inl hkind))
  · next hkind _ => exact mirrors_jump _ (hend (.inl hkind))
  · next hkind _ => exact mirrors_returnValue h (hend (.inl hkind))
  · next hkind _ => exact mirrors_withObject h (hend (.inl hkind))
  · next hkind _ => exact mirrors_switch h (hend (.inl hkind))
  · next hkind _ => exact mirrors_throwValue h (hend (.inl hkind))
  · next hkind _ => exact mirrors_tryCatch h (hend (.inl hkind))
  · next hkind _ => exact mirrors_debugger (hend (.inl hkind))
  · next hkind _ => exact mirrors_functionDeclaration h (hend (.inl hkind))
  · exact mirrors_expressionStatement h d

end Grammar

/-! ### All levels -/

theorem Inner.Mirrors.around {inner : Inner} (h : inner.Mirrors) : inner.around.Mirrors where
  statement := Grammar.mirrors_statement h
  assignment := Grammar.mirrors_assignment h
  unary := Grammar.mirrors_unary h
  newExpression _ := Grammar.mirrors_newExpression h

theorem Inner.Mirrors.ofDepth (depth : Nat) : (Inner.ofDepth depth).Mirrors := by
  induction depth with
  | zero => exact ⟨fun _ => .fail, fun _ _ => .fail, fun _ => .fail, fun _ _ => .fail⟩
  | succ depth ih => exact ih.around

theorem Grammar.mirrors_program (d : Cursor) :
    Mirrors Program.unplaced Grammar.program Grammar.program d :=
  .bind (mirrors_statementsUntil (.ofDepth maxDepth) (fun _ _ => rfl) d) fun _ _ _ _ hxs =>
    .pure (by
      rw [Program.unplaced, Program.unplaced, relabelStatements_eq, relabelStatements_eq]
      exact congrArg Program.mk hxs)

end EcmaPress

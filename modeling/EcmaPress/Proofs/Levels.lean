import EcmaPress.Proofs.Clauses

/-!
# Echoes of whole programs

The parsers of a level leave echoes if those of the next inner level do, and the parsers below
the deepest level never succeed. So the parsers of every level leave echoes, and a program has
one as well.
-/

namespace EcmaPress

open EcmaPress.Parser

variable {inner : Inner} {c m c' : Cursor}

/-! ### The first token of a statement -/

/-- The signs and words that tell a statement. Before anything else stands an expression. -/
def statementWords : List String :=
  ["\x7b", ";", "var", "if", "do", "while", "for", "continue", "break", "return", "with", "switch",
    "throw", "try", "debugger", "function"]

/-- Whether a token tells what statement it begins. -/
def Token.startsStatement (t : Token) : Bool :=
  statementWords.any t.is

theorem isFirm_statementWords : ∀ s ∈ statementWords, isFirm s = true := by
  decide

theorem Token.Peer.startsStatement {t u : Token} (h : t.Peer u) :
    t.startsStatement = u.startsStatement := by
  unfold Token.startsStatement
  rw [Bool.eq_iff_iff, List.any_eq_true, List.any_eq_true]
  refine exists_congr fun s => and_congr_right fun hs => ?_
  rw [h.is_eq (isFirm_statementWords s hs)]

theorem Token.Spelled.startsStatement {t : Token} (h : t.Spelled)
    (hstart : t.startsStatement = true) :
    t.kind = .punct ∧ (t.text = "\x7b" ∨ t.text = ";") ∨
      t.kind = .name ∧ t.text ∈ statementWords.drop 2 := by
  obtain ⟨s, hs, his⟩ := List.any_eq_true.mp hstart
  have hkinds : ∀ s ∈ statementWords, Token.kindOf s = some .punct ∧ (s = "\x7b" ∨ s = ";") ∨
      Token.kindOf s = some .name ∧ s ∈ statementWords.drop 2 := by
    decide
  have hkind := h.kindOf
  rw [(Token.is_iff.mp his).2] at hkind ⊢
  refine (hkinds s hs).imp (And.imp_left fun hk => ?_) (And.imp_left fun hk => ?_)
  · exact Option.some.inj (hkind.symm.trans hk)
  · exact Option.some.inj (hkind.symm.trans hk)

theorem statement_expression (h : c.token.startsStatement = false) :
    Grammar.statement inner c = Grammar.expressionStatement inner c := by
  rw [Grammar.statement, peek_bind]
  generalize hk : c.token.kind = k
  generalize ht : c.token.text = s
  split <;> first
    | rfl
    | simp [Token.startsStatement, statementWords, Token.is, hk, ht] at h

/-- A parser of statements that begins like another one where the first token is a peer. -/
theorem StatementEcho.dispatch {parser parser' : Parser Statement} {last : Bool} {s : Statement}
    (h : StatementEcho parser c last s c')
    (hparser : ∀ d : Cursor, c.token.Peer d.token → parser' d = parser d) :
    StatementEcho parser' c last s c' := by
  refine ⟨h.leads, h.sits, fun w broken d d' hspells hfollow => ?_⟩
  rw [hparser d (h.leads.peer hspells)]
  exact h.again w broken d d' hspells hfollow

/-- The same for a first token that is a sign or a reserved word. -/
theorem StatementEcho.dispatchFirm {parser parser' : Parser Statement} {last : Bool}
    {x : Statement} (h : StatementEcho parser c last x c') {k : TokenKind} {s : String}
    (hk : c.token.kind = k) (ht : c.token.text = s) (hkind : k = .name ∨ k = .punct)
    (hfirm : isFirm s = true)
    (hparser : ∀ d : Cursor, d.token.kind = k → d.token.text = s → parser' d = parser d) :
    StatementEcho parser' c last x c' := by
  subst hk ht
  exact h.dispatch fun d hpeer => hparser d hpeer.kind.symm (hpeer.text_eq hfirm hkind).symm

theorem StatementEcho.statement (hinner : inner.Echoes) {x : Statement}
    (h : Grammar.statement inner c = .ok (x, c')) (last : Bool) :
    StatementEcho (Grammar.statement inner) c last x c' := by
  cases hstart : c.token.startsStatement with
  | false =>
    rw [statement_expression hstart] at h
    exact (StatementEcho.expressionStatement hinner h last).dispatch fun d hpeer =>
      statement_expression (hpeer.startsStatement ▸ hstart)
  | true =>
    have hkind : c.token.kind ≠ .regex := by
      obtain ⟨s, -, his⟩ := List.any_eq_true.mp hstart
      exact Token.is_kind his
    have hcases := (Cursor.spelled hkind).startsStatement hstart
    rw [Grammar.statement, peek_bind] at h
    generalize hk : c.token.kind = k at h hcases
    generalize ht : c.token.text = s at h hcases
    have hname : k = .name → c.token.is s = true := fun hname =>
      Token.is_iff.mpr ⟨.inr (hk.trans hname), ht⟩
    have hpunct : k = .punct → c.token.is s = true := fun hpunct =>
      Token.is_iff.mpr ⟨.inl (hk.trans hpunct), ht⟩
    have hparser : ∀ parser : Parser Statement, (∀ d : Cursor, d.token.kind = k →
        d.token.text = s → Grammar.statement inner d = parser d) → isFirm s = true →
        k = .name ∨ k = .punct → StatementEcho parser c last x c' →
        StatementEcho (Grammar.statement inner) c last x c' :=
      fun parser heq hfirm hkind hecho => hecho.dispatchFirm hk ht hkind hfirm heq
    have heq : ∀ d : Cursor, d.token.kind = k → d.token.text = s →
        Grammar.statement inner d = _ := fun d hk ht => by
      rw [Grammar.statement, peek_bind, hk, ht]
    split at h
    · exact hparser _ heq (by decide) (.inr rfl) (.block hinner h last)
    · exact hparser _ heq (by decide) (.inr rfl) (.empty (hpunct rfl) h last)
    · exact hparser _ heq (by decide) (.inl rfl) (.declarations hinner (hname rfl) h last)
    · exact hparser _ heq (by decide) (.inl rfl) (.ifElse hinner (hname rfl) h last)
    · exact hparser _ heq (by decide) (.inl rfl) (.doWhile hinner (hname rfl) h last)
    · exact hparser _ heq (by decide) (.inl rfl) (.whileDo hinner (hname rfl) h last)
    · exact hparser _ heq (by decide) (.inl rfl) (.forLoop hinner (hname rfl) h last)
    · exact hparser _ heq (by decide) (.inl rfl) (.jump (hname rfl) h last)
    · exact hparser _ heq (by decide) (.inl rfl) (.jump (hname rfl) h last)
    · exact hparser _ heq (by decide) (.inl rfl) (.returnValue hinner (hname rfl) h last)
    · exact hparser _ heq (by decide) (.inl rfl) (.withObject hinner (hname rfl) h last)
    · exact hparser _ heq (by decide) (.inl rfl) (.switch hinner (hname rfl) h last)
    · exact hparser _ heq (by decide) (.inl rfl) (.throwValue hinner (hname rfl) h last)
    · exact hparser _ heq (by decide) (.inl rfl) (.tryCatch hinner (hname rfl) h last)
    · exact hparser _ heq (by decide) (.inl rfl) (.debugger (hname rfl) h last)
    · exact hparser _ heq (by decide) (.inl rfl) (.function hinner (hname rfl) h last)
    · exfalso
      simp only [statementWords, List.drop_succ_cons, List.drop_zero, List.mem_cons,
        List.not_mem_nil, or_false] at hcases
      grind

/-! ### Levels -/

namespace Inner

theorem Echoes.exhausted : exhausted.Echoes where
  statement _ _ _ h := nomatch h
  assignment _ _ _ _ h := nomatch h
  unary _ _ _ h := nomatch h
  newExpression _ _ _ _ h := nomatch h

theorem Echoes.around (h : inner.Echoes) : inner.around.Echoes where
  statement _ _ _ hs := StatementEcho.statement h hs
  assignment _ _ _ _ hx := Echo.assignment h hx
  unary _ _ _ hx := Echo.unary h hx
  newExpression _ _ _ his hx := Echo.newExpression h his hx

/-- Whatever may be read at some level of nesting leaves an echo. -/
theorem Echoes.ofDepth (depth : Nat) : (ofDepth depth).Echoes := by
  induction depth with
  | zero => exact .exhausted
  | succ depth ih => exact ih.around

end Inner

/-! ### Programs -/

theorem program_eq_ok {program : Program} : Grammar.program c = .ok (program, c') ↔
    Grammar.statementsUntil (.ofDepth maxDepth) (·.isEnd) c = .ok (program.body, c') := by
  constructor
  · intro h
    obtain ⟨body, m, hbody, h⟩ := bind_eq_ok.mp h
    obtain ⟨rfl, rfl⟩ := pure_eq_ok.mp h
    exact hbody
  · intro h
    exact bind_eq_ok.mpr ⟨program.body, c', h, rfl⟩

theorem parse_eq_ok {text : String} {source : Option String} {program : Program} :
    parse text source = .ok program ↔ ∃ c c', (Input.ofList text.toList).next [] = .ok c ∧
      Grammar.program c = .ok (program, c') := by
  unfold parse
  cases (Input.ofList text.toList).next [] with
  | error e =>
    constructor
    · intro h
      cases h
    · rintro ⟨d, d', hd, -⟩
      cases hd
  | ok c =>
    cases hp : Grammar.program c with
    | error e =>
      simp only [Bind.bind, Except.bind, hp, Except.ok.injEq]
      constructor
      · intro h
        cases h
      · rintro ⟨d, d', rfl, h⟩
        rw [hp] at h
        cases h
    | ok q =>
      simp only [Bind.bind, Except.bind, pure, Except.pure, hp, Except.ok.injEq]
      constructor
      · intro h
        obtain rfl := Except.ok.inj h
        exact ⟨c, q.2, rfl, hp⟩
      · rintro ⟨d, d', rfl, h⟩
        rw [hp] at h
        rw [Except.ok.inj h]
        rfl

/-- The echo of a program, from the first token of a text to its end. -/
structure ProgramEcho (program : Program) (c c' : Cursor) : Prop where
  isEnd : c'.token.isEnd = true
  traces : Traces c program.pieces c'
  sits : ∀ drop, Piece.Sits drop program.pieces
  again : ∀ (w : Wording) broken d d', w.Spells broken program.pieces d d' →
    d'.token.isEnd = true → ∃ copy : Program, Grammar.program d = .ok (copy, d') ∧
      copy.unplaced = ⟨relabelStatements (.unplaced w.name) program.body⟩

theorem ProgramEcho.program {program : Program} (h : Grammar.program c = .ok (program, c')) :
    ProgramEcho program c c' := by
  have hbody := program_eq_ok.mp h
  have hlines : LinesEcho _ _ c true (linesPieces [] [.newline] true program.body) program.body c' :=
    .statementsUntil (.ofDepth maxDepth) (fun t u hpeer => by rw [Token.isEnd, Token.isEnd, hpeer.kind])
      rfl rfl true hbody
  rw [← Program.pieces_eq] at hlines
  have hend := statementsUntil_end hbody
  refine ⟨hend, hlines.traces, fun drop => ?_, fun w broken d d' hspells hend' => ?_⟩
  · have hsits := hlines.sits drop [] (fun _ spaced q hq => by cases hq) trivial
    rwa [List.append_nil] at hsits
  · have hcloses : d'.token.closesBody = true := by simp [Token.closesBody, hend']
    obtain ⟨-, ys, hys, hcopy⟩ := hlines.again w broken d d' hspells ⟨.ofEnd hend hend', fun _ => hcloses⟩
    exact ⟨⟨ys⟩, program_eq_ok.mpr hys, congrArg Program.mk hcopy⟩

end EcmaPress

import EcmaPress.Proofs.Levels

/-!
# Statements before other statements

The statements of a program are read in the same way where other statements stand behind them, if
each one ends in a token of its own. For no statement begins with a word that would go on with the
one before it.
-/

namespace EcmaPress

/-! ### Words that begin no statement -/

namespace Parser

variable {α β : Type} {parser : Parser α} {c : Cursor}

/-- A parser takes nothing of what stands at a cursor. -/
def Refuses (parser : Parser α) (c : Cursor) : Prop :=
  ∀ x c', parser c ≠ .ok (x, c')

theorem Refuses.bind (h : parser.Refuses c) (f : α → Parser β) : (parser >>= f).Refuses c := by
  intro y c' hok
  obtain ⟨x, m, hx, -⟩ := bind_eq_ok.mp hok
  exact h x m hx

end Parser

open EcmaPress.Parser

variable {inner : Inner} {c c' : Cursor} {word : String}

/-- The words that may go on with a statement, and the brace that closes a list of statements. -/
def Token.idleTexts : List String :=
  "\x7d" :: onwardWords

section Refusing

variable (hword : word ∈ Token.idleTexts) (his : c.token.is word = true)

include hword his

theorem primary_refuses : (Grammar.primary inner).Refuses c := by
  intro x c' h
  have htext := (Token.is_iff.mp his).2
  have hspelled := (Cursor.spelled (Token.is_kind his)).kindOf
  rw [htext] at hspelled
  rcases List.mem_cons.mp hword with rfl | hword
  · have hkind : c.token.kind = .punct :=
      (Option.some.inj ((by decide : Token.kindOf "\x7d" = some .punct).symm.trans hspelled)).symm
    rw [Grammar.primary, peek_bind, hkind, htext] at h
    exact unexpected_eq_ok.mp h
  · have hkind : c.token.kind = .name := by
      have hnames : ∀ word ∈ Token.onwardWords, Token.kindOf word = some .name := by decide
      rw [hnames word hword] at hspelled
      exact (Option.some.inj hspelled).symm
    have hreserved : c.token.isIdentifier = false := by
      have hall : ∀ word ∈ Token.onwardWords, isReserved word = true := by decide
      rw [Token.isIdentifier, htext, hall word hword, Bool.not_true, Bool.and_false]
    rw [Grammar.primary, peek_bind, hkind, htext] at h
    simp only [Token.onwardWords, List.mem_cons, List.not_mem_nil, or_false] at hword
    obtain ⟨hid, -⟩ : c.token.isIdentifier = true ∧ _ := by
      rcases hword with rfl | rfl <;> exact identifier_bind_eq_ok.mp h
    rw [hreserved] at hid
    cases hid

theorem leftHandSide_refuses : (Grammar.leftHandSide inner).Refuses c := by
  refine Refuses.bind (fun x c' h => ?_) _
  have hnew : c.token.is "new" = false := Token.is_unique his (by rintro rfl; revert hword; decide)
  rw [Grammar.callOperand, peek_bind, hnew] at h
  exact primary_refuses hword his x c' h

theorem unary_refuses : (Grammar.unary inner).Refuses c := by
  intro x c' h
  have hnone : ∀ word ∈ Token.idleTexts,
      UnaryOperator.ofSymbol? word = none ∧ UpdateOperator.ofSymbol? word = none := by
    decide
  have hoperators : c.token.unaryOperator? = none ∧ c.token.updateOperator? = none := by
    simp [Token.unaryOperator?, Token.updateOperator?, (Token.is_iff.mp his).2, hnone word hword]
  rw [Grammar.unary, peek_bind, hoperators.1, hoperators.2] at h
  exact Refuses.bind (leftHandSide_refuses hword his) _ x c' h

theorem assignment_refuses {depth : Nat} {noIn : Bool} :
    ((Inner.ofDepth depth).assignment noIn).Refuses c := by
  cases depth with
  | zero => exact fun x c' h => nomatch h
  | succ depth =>
    have hbinary : (Grammar.binary (.ofDepth depth) noIn).Refuses c :=
      Refuses.bind (unary_refuses hword his) _
    have hconditional : (Grammar.conditional (.ofDepth depth) noIn).Refuses c := hbinary.bind _
    exact hconditional.bind _

/-- A word that may go on with a statement begins none, and neither does a closing brace. -/
theorem statement_refuses {depth : Nat} : (Inner.ofDepth depth).statement.Refuses c := by
  cases depth with
  | zero => exact fun x c' h => nomatch h
  | succ depth =>
    intro x c' h
    have hstart : c.token.startsStatement = false := by
      have hother : ∀ word ∈ Token.idleTexts, word ∉ statementWords := by decide
      rw [Token.startsStatement, List.any_eq_false]
      intro s hs hbegins
      rw [Token.is_unique his fun heq => hother word hword (heq ▸ hs)] at hbegins
      cases hbegins
    rw [show (Inner.ofDepth (depth + 1)).statement = Grammar.statement (.ofDepth depth) from rfl,
      statement_expression hstart] at h
    have hitems : (separated ((Inner.ofDepth depth).assignment false)).Refuses c :=
      Refuses.bind (assignment_refuses hword his) _
    have hexpression : (Grammar.expression (.ofDepth depth) false).Refuses c := hitems.bind _
    exact hexpression.bind _ x c' h

end Refusing

/-- Neither do statements up to the end of a text. -/
theorem statementsUntil_begins {depth : Nat} {xs : List Statement}
    (h : Grammar.statementsUntil (.ofDepth depth) (·.isEnd) c = .ok (xs, c')) :
    ∀ word ∈ Token.onwardWords, c.token.is word = false := by
  intro word hword
  rw [Bool.eq_false_iff]
  intro his
  cases xs with
  | nil =>
    obtain ⟨hend, -⟩ := statementUnless_none.mp (many_nil.mp h)
    rw [Token.is_isEnd his] at hend
    cases hend
  | cons x xs =>
    obtain ⟨m, hfirst, -, -⟩ := many_cons.mp h
    exact statement_refuses (List.mem_cons_of_mem _ hword) his x m (statementUnless_some.mp hfirst).2.2

/-! ### Statements that go on -/

/-- A copy of the statements of a text, with statements behind it that are read from there to the
end: all of them are read one after the other. -/
theorem statementsUntil_append {depth : Nat} {before behind : List Piece}
    (hbefore : before.all Piece.isLayout = true) (hbehind : behind.all Piece.isLayout = true)
    {xs zs : List Statement}
    (h : Grammar.statementsUntil (.ofDepth depth) (·.isEnd) c = .ok (xs, c')) {w : Wording}
    {broken : Bool} {d d' e : Cursor} (hspells : w.Spells broken (linesPieces before behind false xs) d d')
    (hrest : Grammar.statementsUntil (.ofDepth depth) (·.isEnd) d' = .ok (zs, e)) :
    ∃ ys, Grammar.statementsUntil (.ofDepth depth) (·.isEnd) d = .ok (ys ++ zs, e) ∧
      Copies relabelStatements w ys xs := by
  induction xs generalizing c broken d with
  | nil =>
    obtain rfl : d = d' := hspells
    exact ⟨[], hrest, rfl⟩
  | cons s rest ih =>
    obtain ⟨m, hfirst, -, hothers⟩ := many_cons.mp h
    obtain ⟨-, hend, hs⟩ := statementUnless_some.mp hfirst
    have hecho := (Inner.Echoes.ofDepth depth).statement _ _ _ hs false
    simp only [linesPieces, Bool.false_and, List.append_assoc, Wording.spells_append,
      Wording.spells_layout hbefore, Wording.spells_layout hbehind] at hspells
    obtain ⟨_, rfl, n, hspells, _, rfl, hspells'⟩ := hspells
    obtain ⟨ys, hys, hcopies⟩ := ih hothers hspells'
    have hparallel : m.token.Parallel n.token := fun word hword =>
      (statementsUntil_begins hothers word hword).trans (statementsUntil_begins hys word hword).symm
    obtain ⟨y, hy, hcopy⟩ := hecho.again w _ d n hspells ⟨hparallel, fun hlast => absurd hlast Bool.false_ne_true⟩
    have hgo : d.token.isEnd = false := by
      rw [Token.isEnd, ← (hecho.leads.peer hspells).kind]
      exact hend
    refine ⟨y :: ys, many_cons.mpr ⟨n, statementUnless_some.mpr ⟨hgo, hgo, hy⟩,
      hecho.leads.size_lt hspells, hys⟩, ?_⟩
    rw [Copies, relabelStatements, relabelStatements, hcopies, hcopy]

end EcmaPress

import EcmaPress.Proofs.BoundedLoops
import EcmaPress.Proofs.GrammarProgress

/-!
# The loops of the grammar

What the parsers of lists, of clauses and of runs of operators do is spelled out as loops, one turn
for each. All of them end, with no more turns than characters are left, and so does `parse`: with a
program or an error.
-/

namespace EcmaPress
namespace Grammar

open EcmaPress.Parser

variable {inner : Inner} (h : inner.Progresses)

/-! ### The clauses of `switch` -/

/-- The clauses of `switch` and the brace behind them. -/
def switchClauses (inner : Inner) : Parser (List SwitchClause) := do
  let before ← caseClauses inner
  let after ← defaultClauses inner
  let _ ← expect "\x7d"
  return before ++ after

theorem switch_eq : switch inner = (do
    let (pos, discriminant) ← tested inner
    let _ ← expect "\x7b"
    return .switch pos discriminant (← switchClauses inner)) := by
  simp [switch, switchClauses]

/-- One turn of the loop over all clauses, which notes whether the default one has been read. -/
def clausing (inner : Inner) :
    List SwitchClause × Bool → Parser (List SwitchClause × Bool ⊕ List SwitchClause)
  | (clauses, defaulted) => do
    if ← eat "\x7d" then
      return .inr clauses
    else if ← eat "case" then
      let test ← expression inner false
      let body ← clauseBody inner
      return .inl (clauses ++ [.mk (some test) body], defaulted)
    else if (← peek).is "default" && !defaulted then
      let _ ← advance
      let body ← clauseBody inner
      return .inl (clauses ++ [.mk none body], true)
    else
      unexpected

/-- What is left to read behind clauses with a test: the default one with those behind it, unless it
has been read, and the brace. -/
def clausesEnd (inner : Inner) (clauses : List SwitchClause) : Bool → Parser (List SwitchClause)
  | true => do
    let _ ← expect "\x7d"
    return clauses
  | false => do
    let after ← defaultClauses inner
    let _ ← expect "\x7d"
    return clauses ++ after

include h in
/-- The clauses with a test go on as long as the word `case` stands there. -/
theorem caseClauses_eq : caseClauses inner = (do
    if ← eat "case" then
      let test ← expression inner false
      let body ← clauseBody inner
      (SwitchClause.mk (some test) body :: ·) <$> caseClauses inner
    else return []) := by
  rw [caseClauses]
  conv => lhs; rw [many_eq, progress_of_advances (advances_caseClause h)]
  generalize many (caseClause inner) = clauses
  rw [caseClause, bind_assoc]
  refine bind_congr fun eaten => ?_
  cases eaten with
  | false => simp
  | true => simp

include h in
theorem repeats_clausing : Repeats (clausing inner) fun (clauses, defaulted) => do
    let before ← caseClauses inner
    clausesEnd inner (clauses ++ before) defaulted where
  advances state := by
    obtain ⟨clauses, defaulted⟩ := state
    refine .ifEat (.pure rfl) (.ifEat ?_ (.peek fun _ => .ite ?_ .unexpected))
    · exact (progresses_expression h _).gain fun _ => (progresses_clauseBody h).gain fun _ =>
        .pure rfl
    · exact follows_advance.follow fun _ => (progresses_clauseBody h).gain fun _ => .pure rfl
  unrolls state := by
    obtain ⟨clauses, defaulted⟩ := state
    funext c
    -- A token is at most one of the brace and the two words, so they may be asked for in any order.
    conv => lhs; rw [caseClauses_eq h]
    simp only [clausing, bind_assoc]
    cases hbrace : c.token.is "\x7d" with
    | true =>
      have hcase := Token.is_unique hbrace (by decide : "\x7d" ≠ "case")
      have hdefault := Token.is_unique hbrace (by decide : "\x7d" ≠ "default")
      rw [eat_bind_of_is hbrace, eat_bind_of_not hcase]
      cases defaulted with
      | true => simp [clausesEnd, expect_bind_of_is hbrace, -bind_pure_comp]
      | false =>
        simp [clausesEnd, defaultClauses, eat_bind_of_not hdefault, expect_bind_of_is hbrace,
          -bind_pure_comp]
    | false =>
      rw [eat_bind_of_not hbrace]
      cases hcase : c.token.is "case" with
      | true =>
        rw [eat_bind_of_is hcase]
        simp [eat_bind_of_is hcase, -bind_pure_comp]
      | false =>
        rw [eat_bind_of_not hcase]
        cases defaulted with
        | true =>
          simp [eat_bind_of_not hcase, clausesEnd, expect_bind_of_not hbrace, unexpected_bind,
            -bind_pure_comp]
        | false =>
          cases hdefault : c.token.is "default" with
          | true =>
            simp [eat_bind_of_not hcase, clausesEnd, defaultClauses, eat_bind_of_is hdefault,
              hdefault, -bind_pure_comp]
          | false =>
            simp [eat_bind_of_not hcase, clausesEnd, defaultClauses, eat_bind_of_not hdefault,
              hdefault, expect_bind_of_not hbrace, unexpected_bind, -bind_pure_comp]

/-! ### Loops over operators -/

/-- One turn of a loop that builds a chain, on what has been built and with the number of links that
may be added. -/
def linking (more : Token → Bool) (link : Expression → Parser Expression) :
    Expression × Nat → Parser (Expression × Nat ⊕ Expression)
  | (base, links) => do
    if more (← peek) then
      match links with
      | 0 => fail .nestedTooDeep
      | links + 1 =>
        let base ← link base
        return .inl (base, links)
    else
      return .inr base

theorem repeats_linking {more : Token → Bool} {link : Expression → Parser Expression}
    (hlink : ∀ base, (link base).Progresses) :
    Repeats (linking more link) fun (base, links) => chain more link base links where
  advances state := by
    obtain ⟨base, _ | links⟩ := state
    · exact .peek fun _ => .ite .fail (.pure rfl)
    · exact .peek fun _ => .ite ((hlink base).gain fun _ => .pure rfl) (.pure rfl)
  unrolls state := by
    obtain ⟨base, _ | links⟩ := state
    · simp only [chain, linking, bind_assoc]
      refine bind_congr fun token => ?_
      cases more token with
      | true => rfl
      | false => simp
    · simp only [chain, linking, bind_assoc]
      refine bind_congr fun token => ?_
      cases more token with
      | true => simp
      | false => simp

/-- One turn of the loop over the operators that bind at least as tightly as `least`. -/
def operating (inner : Inner) (noIn : Bool) (least : Nat) :
    Expression × Nat → Parser (Expression × Nat ⊕ Expression)
  | (left, links) => do
    let token ← peek
    match token.binaryOperator? noIn with
    | none => return .inr left
    | some op =>
      if op.precedence < least then
        return .inr left
      else
        match links with
        | 0 => fail .nestedTooDeep
        | links + 1 =>
          let _ ← advance
          let operand ← unary inner
          let right ← binaryRest inner noIn (op.precedence + 1) maxChain operand
          return .inl (.binary op token.pos left right, links)

include h

theorem repeats_operating (noIn : Bool) (least : Nat) :
    Repeats (operating inner noIn least)
      fun (left, links) => binaryRest inner noIn least links left where
  advances state := by
    obtain ⟨left, links⟩ := state
    refine .peek fun token => ?_
    split
    · exact .pure rfl
    · refine .ite (.pure rfl) ?_
      split
      · exact .fail
      · exact follows_advance.follow fun _ => (progresses_unary h).gain fun operand =>
          (follows_binaryRest h _ _ _ operand).follow fun _ => .pure rfl
  unrolls state := by
    obtain ⟨left, links⟩ := state
    simp only [operating, bind_assoc]
    conv => lhs; rw [binaryRest]
    refine bind_congr fun token => ?_
    cases token.binaryOperator? noIn with
    | none => simp
    | some op =>
      by_cases hlt : op.precedence < least
      · simp [hlt]
      · cases links with
        | zero =>
          simp only [hlt, if_false]
          rfl
        | succ links => simp [hlt]

/-! ### All loops of a level -/

omit h in
/-- The progress of the parsers of a level in a text: where they get to, and their loops. The
statements are those of a program, of a block or of a clause; the values those of an expression with
commas or of a list of arguments. -/
structure MakesProgress (inner : Inner) (text : List Char) : Prop where
  statement : (statement inner).MovesOn text
  assignment : ∀ noIn, (assignment inner noIn).MovesOn text
  unary : (unary inner).MovesOn text
  primary : (primary inner).MovesOn text
  property : (property inner).MovesOn text
  statements : ∀ stop,
    (statementsUntil inner stop).IsLoop text (pushing (statementUnless inner stop)) []
  switch : switch inner = (do
    let (pos, discriminant) ← tested inner
    let _ ← expect "\x7b"
    return .switch pos discriminant (← switchClauses inner))
  clauses : (switchClauses inner).IsLoop text (clausing inner) ([], false)
  elements : (many (element inner)).IsLoop text (pushing (element inner)) []
  properties : (many (propertyItem inner)).IsLoop text (pushing (propertyItem inner)) []
  values : ∀ noIn, (separated (inner.assignment noIn)).IsLoop text
    (listing (inner.assignment noIn)) ([], true)
  declarators : ∀ noIn, (separated (declarator inner noIn)).IsLoop text
    (listing (declarator inner noIn)) ([], true)
  parameters : (separated identifier).IsLoop text (listing identifier) ([], true)
  operators : ∀ noIn least links left, (binaryRest inner noIn least links left).IsLoop text
    (operating inner noIn least) (left, links)
  suffixes : ∀ base links, (chain Token.isSuffix (suffix inner) base links).IsLoop text
    (linking Token.isSuffix (suffix inner)) (base, links)
  members : ∀ base links, (chain Token.isMemberSuffix (member inner) base links).IsLoop text
    (linking Token.isMemberSuffix (member inner)) (base, links)

theorem makesProgress (text : List Char) : MakesProgress inner text where
  statement := (progresses_statement h).movesOn text
  assignment noIn := (progresses_assignment h noIn).movesOn text
  unary := (progresses_unary h).movesOn text
  primary := (progresses_primary h).movesOn text
  property := (progresses_property h).movesOn text
  statements stop := isLoop_many (advances_statementUnless h stop) text
  switch := switch_eq
  clauses := (repeats_clausing h).isLoop text ([], false)
  elements := isLoop_many (advances_element h) text
  properties := isLoop_many (advances_propertyItem h) text
  values noIn := isLoop_separated (h.assignment noIn) text
  declarators noIn := isLoop_separated (progresses_declarator h noIn) text
  parameters := isLoop_separated progresses_identifier text
  operators noIn least links left := (repeats_operating h noIn least).isLoop text (left, links)
  suffixes base links := (repeats_linking (progresses_suffix h)).isLoop text (base, links)
  members base links := (repeats_linking (progresses_member h)).isLoop text (base, links)

end Grammar

/-- A text is parsed by a loop that reads one statement in each turn and ends with a program or an
error. On every level of nesting the parsers of statements, of expressions and of properties get to
a later place whenever they answer, and no loop begins more turns than characters are left. -/
theorem parse_makesProgress (text : String) (source : Option String) :
    (∀ depth, Grammar.MakesProgress (.ofDepth depth) text.toList) ∧
    match (Input.ofList text.toList).next with
    | .error error => parse text source = .error { error with source }
    | .ok c => ∃ result,
      Parser.loop (Parser.pushing (Grammar.statementUnless (.ofDepth maxDepth) (·.isEnd)))
        (text.toList.length - c.token.pos.offset) [] c = some result ∧
      parse text source =
        (result.map fun (body, _) => ⟨body⟩).mapError fun error => { error with source } := by
  have hlevel (depth : Nat) : Grammar.MakesProgress (.ofDepth depth) text.toList :=
    Grammar.makesProgress (.ofDepth depth) text.toList
  refine ⟨hlevel, ?_⟩
  cases hnext : (Input.ofList text.toList).next with
  | error error =>
    simp only [parse, hnext]
    rfl
  | ok c =>
    have hc : c.Reached text.toList := ⟨c, hnext, .refl⟩
    refine ⟨_, (hlevel maxDepth).statements _ c hc, ?_⟩
    simp only [parse, hnext]
    cases hbody : Grammar.statementsUntil (.ofDepth maxDepth) (·.isEnd) c with
    | error error =>
      have hprogram : Grammar.program c = .error error := Parser.bind_error hbody
      simp only [Bind.bind, Except.bind, hprogram]
      rfl
    | ok answer =>
      have hprogram : Grammar.program c = .ok (⟨answer.1⟩, answer.2) := Parser.bind_run hbody
      simp only [Bind.bind, Except.bind, hprogram]
      rfl

end EcmaPress

import EcmaPress.Proofs.Compound

/-!
# Echoes of `for` statements

The head of a `for` statement is read in two steps: its first part, and what goes on behind the
separator. Whether the separator is `in` depends on the first part alone, so a copy goes on in
the same way.
-/

namespace EcmaPress

open EcmaPress.Parser

variable {inner : Inner} {c m n c' : Cursor}

/-! ### The first part -/

theorem forInit_none {isIn : Bool} : Grammar.forInit inner c = .ok ((none, isIn), c') ↔
    c.token.is ";" = true ∧ isIn = false ∧ c = c' := by
  simp only [Grammar.forInit, peek_bind, ite_eq_ok, pure_eq_ok, bind_eq_ok, fail_eq_ok,
    Prod.mk.injEq, reduceCtorEq, false_and, and_false, or_false, exists_false]
  constructor
  · rintro ⟨his, ⟨-, rfl⟩, rfl⟩
    exact ⟨his, rfl, rfl⟩
  · rintro ⟨his, rfl, rfl⟩
    exact ⟨his, ⟨trivial, rfl⟩, rfl⟩

/-- The first part of a head is a declaration or an expression. -/
theorem forInit_some {left : ForInit} {isIn : Bool} :
    Grammar.forInit inner c = .ok ((some left, isIn), c') ↔ c.token.is ";" = false ∧
      ((c.token.is "var" = true ∧ ∃ m xs, c.next = .ok m ∧
          separated (Grammar.declarator inner true) m = .ok (xs, c') ∧
          left = .declarations c.token.pos xs ∧
          isIn = (xs.length == 1 && c'.token.is "in")) ∨
        (c.token.is "var" = false ∧ ∃ x, Grammar.expression inner true c = .ok (x, c') ∧
          left = .expression x ∧ isIn = c'.token.is "in" ∧
          (c'.token.is "in" = true → x.isReference = true))) := by
  rw [Grammar.forInit, peek_bind, ite_eq_ok, ite_eq_ok]
  simp only [pure_eq_ok, Prod.mk.injEq, reduceCtorEq, false_and, and_false, false_or,
    Bool.not_eq_true]
  refine and_congr_right fun _ => or_congr (and_congr_right fun _ => ?_) (and_congr_right fun _ => ?_)
  · constructor
    · intro h
      obtain ⟨m, hnext, h⟩ := advance_bind_eq_ok.mp h
      obtain ⟨xs, n, hxs, h⟩ := bind_eq_ok.mp h
      obtain ⟨heq, rfl⟩ := pure_eq_ok.mp h
      obtain ⟨hleft, rfl⟩ := Prod.mk.inj heq
      exact ⟨m, xs, hnext, hxs, (Option.some.inj hleft).symm, rfl⟩
    · rintro ⟨m, xs, hnext, hxs, rfl, rfl⟩
      exact advance_bind_eq_ok.mpr ⟨m, hnext, bind_eq_ok.mpr ⟨xs, c', hxs, rfl⟩⟩
  · constructor
    · intro h
      obtain ⟨x, n, hx, h⟩ := bind_eq_ok.mp h
      rw [peek_bind] at h
      rcases ite_eq_ok.mp h with ⟨-, h⟩ | ⟨href, h⟩
      · cases fail_eq_ok.mp h
      · obtain ⟨heq, rfl⟩ := pure_eq_ok.mp h
        obtain ⟨hleft, rfl⟩ := Prod.mk.inj heq
        exact ⟨x, hx, (Option.some.inj hleft).symm, rfl, fun hin => by simpa [hin] using href⟩
    · rintro ⟨x, hx, rfl, rfl, href⟩
      refine bind_eq_ok.mpr ⟨x, c', hx, ?_⟩
      rw [peek_bind]
      refine ite_eq_ok.mpr (.inr ⟨?_, rfl⟩)
      simpa using href

/-- The echo of the first part of a head, before the same separator. -/
structure ForInitEcho (inner : Inner) (c : Cursor) (left : ForInit) (isIn : Bool) (c' : Cursor) :
    Prop where
  leads : Leads c left.pieces c'
  sits : ∀ drop rest, Piece.Calm drop rest → Piece.Sits drop rest →
    Piece.Sits drop (left.pieces ++ rest)
  again : ∀ (w : Wording) broken d d' s, w.Spells broken left.pieces d d' →
    c'.token.is s = true → d'.token.is s = true → UpdateOperator.ofSymbol? s = none →
    ∃ y, Grammar.forInit inner d = .ok ((some y, isIn), d') ∧ Copies ForInit.relabel w y left

theorem ForInitEcho.declarations (hinner : inner.Echoes) {xs : List Declarator}
    (his : c.token.is "var" = true) (hnext : c.next = .ok m)
    (hxs : separated (Grammar.declarator inner true) m = .ok (xs, c')) :
    ForInitEcho inner c (.declarations c.token.pos xs) (xs.length == 1 && c'.token.is "in") c' := by
  have hecho := Echo.declarators hinner hxs
  have hpieces : (ForInit.declarations c.token.pos xs).pieces =
      .mapped "var" c.token.pos :: declaratorsPieces xs := by
    rw [ForInit.pieces]
  constructor
  · rw [hpieces]
    exact .mapped his (by decide) hnext hecho.leads.traces
  · intro drop rest hcalm hsits
    rw [hpieces]
    exact (Piece.sits_quiet (by decide)).mpr (hecho.sits drop rest hcalm hsits)
  · intro w broken d d' s hspells hs hs' hupdate
    rw [hpieces] at hspells
    obtain ⟨his', -, e, he, hspells'⟩ := (Wording.spells_sign (by decide)).mp hspells
    obtain ⟨ys, hys, hcopy⟩ := hecho.again w _ e d' hspells' (.ofIs hs hs' hupdate)
    have hlength : ys.length = xs.length := by
      have h := congrArg List.length hcopy
      simpa only [relabelDeclarators_eq, List.length_map] using h
    refine ⟨.declarations d.token.pos ys, forInit_some.mpr ⟨Token.is_unique his' (by decide),
      .inl ⟨his', e, ys, he, hys, rfl, ?_⟩⟩, congrArg (ForInit.declarations .start) hcopy⟩
    rw [hlength, (Token.Same.ofIs hs hs').is_eq "in"]

theorem ForInitEcho.expression (hinner : inner.Echoes) {x : Expression}
    (hsemi : c.token.is ";" = false) (hvar : c.token.is "var" = false)
    (hx : Grammar.expression inner true c = .ok (x, c'))
    (href : c'.token.is "in" = true → x.isReference = true) :
    ForInitEcho inner c (.expression x) (c'.token.is "in") c' := by
  have hecho := Echo.expression hinner hx
  have hpieces : (ForInit.expression x).pieces = x.pieces := by
    rw [ForInit.pieces]
  constructor
  · rw [hpieces]
    exact hecho.leads
  · intro drop rest hcalm hsits
    rw [hpieces]
    exact hecho.sits drop rest hcalm hsits
  · intro w broken d d' s hspells hs hs' hupdate
    rw [hpieces] at hspells
    have hpeer := hecho.leads.peer hspells
    obtain ⟨y, hy, hcopy⟩ := hecho.again w broken d d' hspells (.ofIs hs hs' hupdate)
    have hin := (Token.Same.ofIs hs hs').is_eq "in"
    refine ⟨.expression y, forInit_some.mpr ⟨(hpeer.is_eq (by decide)).symm.trans hsemi,
      .inr ⟨(hpeer.is_eq (by decide)).symm.trans hvar, y, hy, rfl, hin, fun h => ?_⟩⟩,
      congrArg ForInit.expression hcopy⟩
    exact hcopy.isReference.trans (href (hin.trans h))

theorem ForInitEcho.forInit (hinner : inner.Echoes) {left : ForInit} {isIn : Bool}
    (h : Grammar.forInit inner c = .ok ((some left, isIn), c')) :
    ForInitEcho inner c left isIn c' := by
  obtain ⟨hsemi, ⟨his, m, xs, hnext, hxs, rfl, rfl⟩ | ⟨hvar, x, hx, rfl, rfl, href⟩⟩ :=
    forInit_some.mp h
  · exact .declarations hinner his hnext hxs
  · exact .expression hinner hsemi hvar hx href

/-! ### The other parts -/

/-- The pieces of an expression that may be missing, with a space before it. -/
def optionalPieces : Option Expression → List Piece
  | none => []
  | some x => .space :: x.pieces

theorem expressionBefore_none {close : String} :
    Grammar.expressionBefore inner close c = .ok (none, c') ↔ c.token.is close = true ∧ c = c' := by
  simp [Grammar.expressionBefore, ite_eq_ok, pure_eq_ok, map_eq_ok]

theorem expressionBefore_some {close : String} {x : Expression} :
    Grammar.expressionBefore inner close c = .ok (some x, c') ↔ c.token.is close = false ∧
      Grammar.expression inner false c = .ok (x, c') := by
  simp [Grammar.expressionBefore, ite_eq_ok, pure_eq_ok, map_eq_ok]

/-- The echo of an expression that may be missing before a sign. -/
structure OptionalEcho (inner : Inner) (close : String) (c : Cursor) (x : Option Expression)
    (c' : Cursor) : Prop where
  traces : Traces c (optionalPieces x) c'
  sits : ∀ drop rest, Piece.Calm drop rest → Piece.Sits drop rest →
    Piece.Sits drop (optionalPieces x ++ rest)
  again : ∀ (w : Wording) broken d d', w.Spells broken (optionalPieces x) d d' →
    d'.token.is close = true → ∃ y, Grammar.expressionBefore inner close d = .ok (y, d') ∧
      Copies (fun r => Option.map (Expression.relabel r)) w y x

theorem OptionalEcho.expressionBefore (hinner : inner.Echoes) {close : String}
    {x : Option Expression} (hclose : isFirm close = true)
    (hupdate : UpdateOperator.ofSymbol? close = none)
    (h : Grammar.expressionBefore inner close c = .ok (x, c')) (his : c'.token.is close = true) :
    OptionalEcho inner close c x c' := by
  cases x with
  | none =>
    obtain ⟨-, rfl⟩ := expressionBefore_none.mp h
    refine ⟨.nil, fun _ _ _ hsits => hsits, ?_⟩
    rintro w broken d d' rfl his'
    exact ⟨none, expressionBefore_none.mpr ⟨his', rfl⟩, rfl⟩
  | some x =>
    obtain ⟨hnot, hx⟩ := expressionBefore_some.mp h
    have hecho := Echo.expression hinner hx
    refine ⟨.layout rfl hecho.leads.traces, hecho.sits, fun w broken d d' hspells his' => ?_⟩
    have hspells := Wording.spells_space.mp hspells
    obtain ⟨y, hy, hcopy⟩ := hecho.again w broken d d' hspells (.ofIs his his' hupdate)
    have hnot' := ((hecho.leads.peer hspells).is_eq hclose).symm.trans hnot
    exact ⟨some y, expressionBefore_some.mpr ⟨hnot', hy⟩, congrArg some hcopy⟩

/-! ### Heads -/

namespace Grammar.ForHead

/-- The pieces of a head, without its parentheses. -/
def pieces : ForHead → List Piece
  | loop init test update =>
    ((match init with
      | none => []
      | some init => init.pieces) ++ .sign ";" :: optionalPieces test) ++
        .sign ";" :: optionalPieces update
  | each left right => left.pieces ++ [.space, .sign "in", .space] ++ right.pieces

/-- A head with new labels. -/
def relabel (r : Relabeling) : ForHead → ForHead
  | loop init test update =>
    loop (init.map (ForInit.relabel r)) (test.map (Expression.relabel r))
      (update.map (Expression.relabel r))
  | each left right => each (left.relabel r) (right.relabel r)

theorem statement_relabel (r : Relabeling) (head : ForHead) (pos : Position) (body : Statement) :
    (head.statement pos body).relabel r = (head.relabel r).statement (r.place pos) (body.relabel r) := by
  cases head with
  | loop init test update =>
    cases init <;> cases test <;> cases update <;> simp [statement, Statement.relabel, relabel]
  | each left right => simp [statement, Statement.relabel, relabel]

theorem statement_pieces (head : ForHead) (pos : Position) (body : Statement) (last : Bool) :
    (head.statement pos body).pieces last =
      (.mapped "for" pos :: .space :: Piece.inParens head.pieces) ++
        body.bodyPieces (body.pieces last) := by
  cases head with
  | loop init test update =>
    cases init <;> cases test <;> cases update <;>
      simp [statement, Statement.pieces, pieces, optionalPieces]
  | each left right => simp [statement, Statement.pieces, pieces]

end Grammar.ForHead

theorem forRest_each {left : ForInit} {head : Grammar.ForHead} :
    Grammar.forRest inner (some left, true) c = .ok (head, c') ↔ c.token.is "in" = true ∧
      ∃ m right, c.next = .ok m ∧ Grammar.expression inner false m = .ok (right, c') ∧
        head = .each left right := by
  constructor
  · intro h
    obtain ⟨his, m, hnext, h⟩ := expect_bind_eq_ok.mp h
    obtain ⟨right, n, hright, h⟩ := bind_eq_ok.mp h
    obtain ⟨rfl, rfl⟩ := pure_eq_ok.mp h
    exact ⟨his, m, right, hnext, hright, rfl⟩
  · rintro ⟨his, m, right, hnext, hright, rfl⟩
    exact expect_bind_eq_ok.mpr ⟨his, m, hnext, bind_eq_ok.mpr ⟨right, c', hright, rfl⟩⟩

theorem forRest_loop {init : Option ForInit} {isIn : Bool} {head : Grammar.ForHead}
    (hinit : init = none ∨ isIn = false) :
    Grammar.forRest inner (init, isIn) c = .ok (head, c') ↔ c.token.is ";" = true ∧
      ∃ m test n n' update, c.next = .ok m ∧
        Grammar.expressionBefore inner ";" m = .ok (test, n) ∧ n.token.is ";" = true ∧
        n.next = .ok n' ∧ Grammar.expressionBefore inner ")" n' = .ok (update, c') ∧
        head = .loop init test update := by
  have hrest : Grammar.forRest inner (init, isIn) = (do
      let _ ← expect ";"
      let test ← Grammar.expressionBefore inner ";"
      let _ ← expect ";"
      let update ← Grammar.expressionBefore inner ")"
      return .loop init test update) := by
    rcases hinit with rfl | rfl
    · rfl
    · cases init <;> rfl
  rw [hrest]
  constructor
  · intro h
    obtain ⟨his, m, hnext, h⟩ := expect_bind_eq_ok.mp h
    obtain ⟨test, n, htest, h⟩ := bind_eq_ok.mp h
    obtain ⟨his', n', hnext', h⟩ := expect_bind_eq_ok.mp h
    obtain ⟨update, e, hupdate, h⟩ := bind_eq_ok.mp h
    obtain ⟨rfl, rfl⟩ := pure_eq_ok.mp h
    exact ⟨his, m, test, n, n', update, hnext, htest, his', hnext', hupdate, rfl⟩
  · rintro ⟨his, m, test, n, n', update, hnext, htest, his', hnext', hupdate, rfl⟩
    exact expect_bind_eq_ok.mpr ⟨his, m, hnext, bind_eq_ok.mpr ⟨test, n, htest,
      expect_bind_eq_ok.mpr ⟨his', n', hnext', bind_eq_ok.mpr ⟨update, c', hupdate, rfl⟩⟩⟩⟩

/-- What stands behind the first part of a `for` statement without `in`. -/
structure LoopEcho (inner : Inner) (c : Cursor) (test update : Option Expression) (c' : Cursor) :
    Prop where
  leads : Leads c ((.sign ";" :: optionalPieces test) ++ .sign ";" :: optionalPieces update) c'
  sits : ∀ drop rest, Piece.Calm drop rest → Piece.Sits drop rest → Piece.Sits drop
    (((.sign ";" :: optionalPieces test) ++ .sign ";" :: optionalPieces update) ++ rest)
  again : ∀ (w : Wording) broken d d', w.Spells broken
      ((.sign ";" :: optionalPieces test) ++ .sign ";" :: optionalPieces update) d d' →
    d'.token.is ")" = true → d.token.is ";" = true ∧ ∃ test' update',
      Copies (fun r => Option.map (Expression.relabel r)) w test' test ∧
        Copies (fun r => Option.map (Expression.relabel r)) w update' update ∧
          ∀ init isIn, init = none ∨ isIn = false →
            Grammar.forRest inner (init, isIn) d = .ok (.loop init test' update', d')

theorem LoopEcho.forRest (hinner : inner.Echoes) {init : Option ForInit} {isIn : Bool}
    {head : Grammar.ForHead} (hinit : init = none ∨ isIn = false)
    (h : Grammar.forRest inner (init, isIn) c = .ok (head, c')) (hclose : c'.token.is ")" = true) :
    c.token.is ";" = true ∧ ∃ test update, head = .loop init test update ∧
      LoopEcho inner c test update c' := by
  obtain ⟨his, m, test, n, n', update, hnext, htest, his', hnext', hupdate, rfl⟩ :=
    (forRest_loop hinit).mp h
  have htest := OptionalEcho.expressionBefore hinner (by decide) (by decide) htest his'
  have hupdate := OptionalEcho.expressionBefore hinner (by decide) (by decide) hupdate hclose
  refine ⟨his, test, update, rfl, ?_, fun drop rest hcalm hsits => ?_,
    fun w broken d d' hspells hclose' => ?_⟩
  · exact .sign his (by decide) hnext (htest.traces.append
      (Leads.sign his' (by decide) hnext' hupdate.traces).traces)
  · rw [List.append_assoc]
    exact (Piece.sits_quiet (by decide)).mpr (htest.sits drop _ (Piece.calm_sign (by decide))
      ((Piece.sits_quiet (by decide)).mpr (hupdate.sits drop rest hcalm hsits)))
  · obtain ⟨e, hfirst, hspells₁⟩ := Wording.spells_append.mp hspells
    obtain ⟨hd, -, m', hm', hspells₂⟩ := (Wording.spells_sign (by decide)).mp hfirst
    obtain ⟨hd', -, e', he', hspells₃⟩ := (Wording.spells_sign (by decide)).mp hspells₁
    obtain ⟨test', htest', hcopy⟩ := htest.again w _ m' e hspells₂ hd'
    obtain ⟨update', hupdate', hcopy'⟩ := hupdate.again w _ e' d' hspells₃ hclose'
    exact ⟨hd, test', update', hcopy, hcopy', fun init isIn hinit => (forRest_loop hinit).mpr
      ⟨hd, m', test', e, e', update', hm', htest', hd', he', hupdate', rfl⟩⟩

theorem InsideEcho.forHead_each (hinner : inner.Echoes) {left : ForInit} {head : Grammar.ForHead}
    (hleft : Grammar.forInit inner c = .ok ((some left, true), m))
    (h : Grammar.forRest inner (some left, true) m = .ok (head, c'))
    (hclose : c'.token.is ")" = true) :
    InsideEcho (Grammar.forHead inner) Grammar.ForHead.relabel ")" c head.pieces head c' := by
  obtain ⟨his, n, right, hnext, hright, rfl⟩ := forRest_each.mp h
  have hleft := ForInitEcho.forInit hinner hleft
  have hright := Echo.expression hinner hright
  have hpieces : (Grammar.ForHead.each left right).pieces =
      left.pieces ++ .space :: .sign "in" :: .space :: right.pieces := by
    simp [Grammar.ForHead.pieces]
  rw [hpieces]
  refine ⟨hleft.leads.append (.layout rfl (Leads.sign his (by decide) hnext
      (.layout rfl hright.leads.traces)).traces), fun drop rest hcalm hsits => ?_,
    fun w broken d d' hspells hclose' => ?_⟩
  · rw [List.append_assoc]
    exact hleft.sits drop _ (Piece.calm_spaced (by decide)) (Piece.sits_space.mpr
      ((Piece.sits_quiet (by decide)).mpr (hright.sits drop rest hcalm hsits)))
  · obtain ⟨e, hspells₁, hspells₂⟩ := Wording.spells_append.mp hspells
    obtain ⟨his', -, e', he', hspells₃⟩ := (Wording.spells_sign (by decide)).mp
      (Wording.spells_space.mp hspells₂)
    obtain ⟨left', hleft', hcopy⟩ := hleft.again w broken d e "in" hspells₁ his his' (by decide)
    obtain ⟨right', hright', hcopy'⟩ := hright.again w _ e' d' (Wording.spells_space.mp hspells₃)
      (.ofIs hclose hclose' (by decide))
    refine ⟨.each left' right', bind_eq_ok.mpr ⟨(some left', true), e, hleft', forRest_each.mpr
      ⟨his', e', right', he', hright', rfl⟩⟩, ?_⟩
    rw [Copies] at hcopy hcopy' ⊢
    rw [Grammar.ForHead.relabel, Grammar.ForHead.relabel, hcopy, hcopy']

theorem InsideEcho.forHead_loop (hinner : inner.Echoes) {init : Option ForInit} {isIn : Bool}
    {head : Grammar.ForHead} (hloop : init = none ∨ isIn = false)
    (hinit : Grammar.forInit inner c = .ok ((init, isIn), m))
    (h : Grammar.forRest inner (init, isIn) m = .ok (head, c'))
    (hclose : c'.token.is ")" = true) :
    InsideEcho (Grammar.forHead inner) Grammar.ForHead.relabel ")" c head.pieces head c' := by
  obtain ⟨his, test, update, rfl, hrest⟩ := LoopEcho.forRest hinner hloop h hclose
  cases init with
  | none =>
    obtain ⟨-, -, rfl⟩ := forInit_none.mp hinit
    refine ⟨hrest.leads, hrest.sits, fun w broken d d' hspells hclose' => ?_⟩
    obtain ⟨hd, test', update', hcopy, hcopy', hagain⟩ := hrest.again w broken d d' hspells hclose'
    refine ⟨.loop none test' update', bind_eq_ok.mpr ⟨(none, false), d,
      forInit_none.mpr ⟨hd, rfl, rfl⟩, hagain none false (.inl rfl)⟩, ?_⟩
    rw [Copies] at hcopy hcopy' ⊢
    rw [Grammar.ForHead.relabel, Grammar.ForHead.relabel, hcopy, hcopy']
    rfl
  | some init =>
    obtain rfl := hloop.resolve_left (by simp)
    have hinit := ForInitEcho.forInit hinner hinit
    have hpieces : (Grammar.ForHead.loop (some init) test update).pieces = init.pieces ++
        ((.sign ";" :: optionalPieces test) ++ .sign ";" :: optionalPieces update) := by
      simp [Grammar.ForHead.pieces]
    rw [hpieces]
    refine ⟨hinit.leads.append hrest.leads.traces, fun drop rest hcalm hsits => ?_,
      fun w broken d d' hspells hclose' => ?_⟩
    · rw [List.append_assoc]
      exact hinit.sits drop _ (Piece.calm_sign (by decide)) (hrest.sits drop rest hcalm hsits)
    · obtain ⟨e, hspells₁, hspells₂⟩ := Wording.spells_append.mp hspells
      obtain ⟨hd, test', update', hcopy, hcopy', hagain⟩ := hrest.again w _ e d' hspells₂ hclose'
      obtain ⟨init', hinit', hcopy''⟩ := hinit.again w broken d e ";" hspells₁ his hd (by decide)
      refine ⟨.loop (some init') test' update', bind_eq_ok.mpr ⟨(some init', false), e, hinit',
        hagain _ false (.inr rfl)⟩, ?_⟩
      rw [Copies] at hcopy hcopy' hcopy'' ⊢
      rw [Grammar.ForHead.relabel, Grammar.ForHead.relabel, Option.map_some, Option.map_some, hcopy,
        hcopy', hcopy'']

theorem InsideEcho.forHead (hinner : inner.Echoes) {head : Grammar.ForHead}
    (h : Grammar.forHead inner c = .ok (head, c')) (hclose : c'.token.is ")" = true) :
    InsideEcho (Grammar.forHead inner) Grammar.ForHead.relabel ")" c head.pieces head c' := by
  obtain ⟨⟨init, isIn⟩, m, hinit, h⟩ := bind_eq_ok.mp h
  by_cases hloop : init = none ∨ isIn = false
  · exact .forHead_loop hinner hloop hinit h hclose
  · obtain ⟨hsome, hin⟩ := not_or.mp hloop
    obtain ⟨left, rfl⟩ := Option.ne_none_iff_exists'.mp hsome
    obtain rfl : isIn = true := by simpa using hin
    exact .forHead_each hinner hinit h hclose

theorem StatementEcho.forLoop (hinner : inner.Echoes) {s : Statement}
    (his : c.token.is "for" = true) (h : Grammar.forLoop inner c = .ok (s, c')) (last : Bool) :
    StatementEcho (Grammar.forLoop inner) c last s c' := by
  obtain ⟨m, hnext, h⟩ := advance_bind_eq_ok.mp h
  obtain ⟨hopen, m', hnext', h⟩ := expect_bind_eq_ok.mp h
  obtain ⟨head, n, hhead, h⟩ := bind_eq_ok.mp h
  obtain ⟨hclose, n', hnext'', h⟩ := expect_bind_eq_ok.mp h
  obtain ⟨body, e, hbody, h⟩ := bind_eq_ok.mp h
  obtain ⟨rfl, rfl⟩ := pure_eq_ok.mp h
  have hhead := (InsideEcho.forHead hinner hhead hclose).enclosed (by decide) (by decide) hopen
    hnext' hclose hnext'' none (by simp)
  obtain ⟨before, behind, hbefore, hbehind, hlayout⟩ := bodyPieces_eq body (body.pieces last)
  have hpieces := head.statement_pieces c.token.pos body last
  rw [hlayout] at hpieces
  refine .headed hbefore hbehind hpieces
    (.mapped his (by decide) hnext (.layout rfl hhead.leads.traces)) (fun drop rest hsits => ?_)
    (hinner.statement _ _ _ hbody last) fun w broken d e d' y hspells hpeer hy hcopy => ?_
  · exact (Piece.sits_quiet (by decide)).mpr (Piece.sits_space.mpr (hhead.sits drop rest hsits))
  · obtain ⟨-, -, f, hf, hspells'⟩ := (Wording.spells_sign (by decide)).mp hspells
    obtain ⟨hopen', f', hf', -, head', g, hhead', hclose', hg, hcopy'⟩ :=
      hhead.again w _ f e (Wording.spells_space.mp hspells')
    refine ⟨head'.statement d.token.pos y, advance_bind_eq_ok.mpr ⟨f, hf, expect_bind_eq_ok.mpr
      ⟨hopen', f', hf', bind_eq_ok.mpr ⟨head', g, hhead', expect_bind_eq_ok.mpr ⟨hclose', e, hg,
        bind_eq_ok.mpr ⟨y, d', hy, rfl⟩⟩⟩⟩⟩, ?_⟩
    rw [Copies] at hcopy hcopy' ⊢
    rw [Grammar.ForHead.statement_relabel, Grammar.ForHead.statement_relabel, hcopy, hcopy']
    rfl

end EcmaPress

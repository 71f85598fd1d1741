import EcmaPress.Proofs.Loops

/-!
# Echoes of `switch` statements

The clauses of a `switch` statement make one list in three parts: those before the default
clause, the default clause, and those behind it. Only the last statement of the last clause may
lose its semicolon.
-/

namespace EcmaPress

open EcmaPress.Parser

variable {inner : Inner} {c m n c' : Cursor}

/-! ### The body of a clause -/

/-- The pieces of the statements of a clause, with the colon before them. -/
def clauseBodyPieces (last : Bool) (body : List Statement) : List Piece :=
  .sign ":" :: .indent :: (statementsPieces last body ++ [.dedent])

theorem SwitchClause.pieces_case (last : Bool) (test : Expression) (body : List Statement) :
    (SwitchClause.mk (some test) body).pieces last =
      .newline :: .sign "case" :: .space :: (test.pieces ++ clauseBodyPieces last body) := by
  simp [SwitchClause.pieces, clauseBodyPieces]

theorem SwitchClause.pieces_default (last : Bool) (body : List Statement) :
    (SwitchClause.mk none body).pieces last =
      .newline :: .sign "default" :: clauseBodyPieces last body := by
  simp [SwitchClause.pieces, clauseBodyPieces]

theorem LinesEcho.clauseBody (hinner : inner.Echoes) {body : List Statement}
    (h : Grammar.clauseBody inner c = .ok (body, c')) (last : Bool) :
    c.token.is ":" = true ∧ LinesEcho (Grammar.clauseBody inner) relabelStatements c last
      (clauseBodyPieces last body) body c' := by
  obtain ⟨his, m, hnext, h⟩ := expect_bind_eq_ok.mp h
  have hlines : LinesEcho _ _ m last (linesPieces [.newline] [] last body) body c' :=
    .statementsUntil hinner (fun t u hpeer => by
      rw [hpeer.is_eq (by decide), hpeer.is_eq (by decide), hpeer.is_eq (by decide)]) rfl rfl last h
  rw [← statementsPieces_eq] at hlines
  have hdedent : [Piece.dedent].all Piece.isLayout = true := rfl
  refine ⟨his, (Leads.sign his (by decide) hnext
      (.layout rfl (hlines.traces.append (.ofLayout hdedent)))).traces,
    fun drop rest hcloses hsits => ?_, fun w broken d d' hspells hfollow => ?_⟩
  · refine (Piece.sits_quiet (by decide)).mpr ?_
    show Piece.Sits drop ((statementsPieces last body ++ [.dedent]) ++ rest)
    rw [List.append_assoc]
    exact hlines.sits drop _ (fun hlast => Piece.closes_layout hdedent (hcloses hlast))
      ((Piece.sits_layout hdedent).mpr hsits)
  · obtain ⟨his', -, e, he, hspells₁⟩ := (Wording.spells_sign (by decide)).mp hspells
    obtain ⟨e', hspells₂, hlayout⟩ := Wording.spells_append.mp (Wording.spells_indent.mp hspells₁)
    obtain rfl := (Wording.spells_layout hdedent).mp hlayout
    obtain ⟨-, ys, hys, hcopy⟩ := hlines.again w _ e e' hspells₂ hfollow
    exact ⟨.ofIs his his', ys, expect_bind_eq_ok.mpr ⟨his', e, he, hys⟩, hcopy⟩

/-! ### Clauses with a test -/

/-- The pieces of clauses, of which the last one may be the last one of all. -/
def clausesPiecesOf (last : Bool) : List SwitchClause → List Piece
  | [] => []
  | clause :: rest => clause.pieces (last && rest.isEmpty) ++ clausesPiecesOf last rest

theorem clausesPieces_eq (xs : List SwitchClause) : clausesPieces xs = clausesPiecesOf true xs := by
  induction xs with
  | nil => rfl
  | cons x rest ih => rw [clausesPieces, clausesPiecesOf, ih, Bool.true_and]

theorem clausesPiecesOf_append (last : Bool) (xs ys : List SwitchClause) :
    clausesPiecesOf last (xs ++ ys) =
      clausesPiecesOf (last && ys.isEmpty) xs ++ clausesPiecesOf last ys := by
  induction xs with
  | nil => rfl
  | cons x rest ih =>
    rw [List.cons_append, clausesPiecesOf, clausesPiecesOf, ih, List.append_assoc]
    cases rest <;> simp

theorem caseClause_none : Grammar.caseClause inner c = .ok (none, c') ↔
    c.token.is "case" = false ∧ c = c' := by
  constructor
  · intro h
    obtain ⟨-, m, -, h⟩ | ⟨hnot, h⟩ := eat_bind_eq_ok.mp h
    · obtain ⟨test, n, -, h⟩ := bind_eq_ok.mp h
      obtain ⟨body, e, -, h⟩ := bind_eq_ok.mp h
      cases (pure_eq_ok.mp h).1
    · exact ⟨hnot, (pure_eq_ok.mp h).2⟩
  · rintro ⟨hnot, rfl⟩
    exact eat_bind_eq_ok.mpr (.inr ⟨hnot, rfl⟩)

theorem caseClause_some {clause : SwitchClause} :
    Grammar.caseClause inner c = .ok (some clause, c') ↔ c.token.is "case" = true ∧
      ∃ m test n body, c.next = .ok m ∧ Grammar.expression inner false m = .ok (test, n) ∧
        Grammar.clauseBody inner n = .ok (body, c') ∧ clause = .mk (some test) body := by
  constructor
  · intro h
    obtain ⟨his, m, hnext, h⟩ | ⟨-, h⟩ := eat_bind_eq_ok.mp h
    · obtain ⟨test, n, htest, h⟩ := bind_eq_ok.mp h
      obtain ⟨body, e, hbody, h⟩ := bind_eq_ok.mp h
      obtain ⟨heq, rfl⟩ := pure_eq_ok.mp h
      exact ⟨his, m, test, n, body, hnext, htest, hbody, (Option.some.inj heq).symm⟩
    · cases (pure_eq_ok.mp h).1
  · rintro ⟨his, m, test, n, body, hnext, htest, hbody, rfl⟩
    exact eat_bind_eq_ok.mpr (.inl ⟨his, m, hnext, bind_eq_ok.mpr ⟨test, n, htest, bind_eq_ok.mpr
      ⟨body, c', hbody, rfl⟩⟩⟩)

/-- The echo of a clause, which begins with a word of its own: how it is read, and its pieces. -/
structure ClauseEcho (reads : SwitchClause → Cursor → Cursor → Prop) (c : Cursor) (last : Bool)
    (clause : SwitchClause) (c' : Cursor) : Prop where
  traces : Traces c (clause.pieces last) c'
  sits : ∀ drop rest, ((last && drop) = true → Piece.Closes drop rest) → Piece.Sits drop rest →
    Piece.Sits drop (clause.pieces last ++ rest)
  again : ∀ (w : Wording) broken d d', w.Spells broken (clause.pieces last) d d' →
    c'.token.FollowsLines (last && w.drop) d'.token → c.token.Peer d.token ∧
      d'.input.size < d.input.size ∧ ∃ y, reads y d d' ∧ Copies SwitchClause.relabel w y clause

/-- A clause before other clauses. -/
theorem ClauseEcho.lines {reads : SwitchClause → Cursor → Cursor → Prop}
    {parser parser' : Parser (List SwitchClause)} {last : Bool} {clause : SwitchClause}
    {rest : List SwitchClause} (h : ClauseEcho reads c (last && rest.isEmpty) clause m)
    (hrest : LinesEcho parser' relabelClauses m last (clausesPiecesOf last rest) rest c')
    (hparser : ∀ y ys d e d', reads y d e → e.input.size < d.input.size →
      parser' e = .ok (ys, d') → parser d = .ok (y :: ys, d')) :
    LinesEcho parser relabelClauses c last (clausesPiecesOf last (clause :: rest)) (clause :: rest)
      c' := by
  refine ⟨h.traces.append hrest.traces, fun drop more hcloses hsits => ?_,
    fun w broken d d' hspells hfollow => ?_⟩
  · rw [clausesPiecesOf, List.append_assoc]
    refine h.sits drop _ (fun hlast => ?_) (hrest.sits drop more hcloses hsits)
    obtain ⟨rfl, hdropped⟩ := last_item hlast
    exact hcloses hdropped
  · obtain ⟨e, hspells₁, hspells₂⟩ := Wording.spells_append.mp hspells
    obtain ⟨hpeer, ys, hys, hcopies⟩ := hrest.again w _ e d' hspells₂ hfollow
    have hclosed : ((last && rest.isEmpty) && w.drop) = true → e.token.closesBody = true := by
      intro hlast
      obtain ⟨rfl, hdropped⟩ := last_item hlast
      obtain rfl : e = d' := hspells₂
      exact hfollow.closes hdropped
    obtain ⟨hpeer', hsize, y, hy, hcopy⟩ := h.again w _ d e hspells₁ ⟨hpeer, hclosed⟩
    refine ⟨hpeer', y :: ys, hparser y ys d e d' hy hsize hys, ?_⟩
    rw [Copies, relabelClauses, relabelClauses, hcopies, hcopy]

theorem ClauseEcho.caseClause (hinner : inner.Echoes) {clause : SwitchClause}
    (h : Grammar.caseClause inner c = .ok (some clause, c')) (last : Bool) :
    ClauseEcho (fun y d d' => Grammar.caseClause inner d = .ok (some y, d')) c last clause c' := by
  obtain ⟨his, m, test, n, body, hnext, htest, hbody, rfl⟩ := caseClause_some.mp h
  have htest := Echo.expression hinner htest
  obtain ⟨hcolon, hbody⟩ := LinesEcho.clauseBody hinner hbody last
  have hleads : Leads c (.sign "case" :: .space :: (test.pieces ++ clauseBodyPieces last body)) c' :=
    .sign his (by decide) hnext (.layout rfl (htest.leads.append hbody.traces).traces)
  constructor <;> rw [SwitchClause.pieces_case]
  · exact .layout rfl hleads.traces
  · intro drop rest hcloses hsits
    refine Piece.sits_newline.mpr ((Piece.sits_quiet (by decide)).mpr (Piece.sits_space.mpr ?_))
    show Piece.Sits drop ((test.pieces ++ clauseBodyPieces last body) ++ rest)
    rw [List.append_assoc]
    exact htest.sits drop _ (Piece.calm_sign (by decide)) (hbody.sits drop rest hcloses hsits)
  · intro w broken d d' hspells hfollow
    have hspells := Wording.spells_newline.mp hspells
    obtain ⟨his', -, e, he, hspells₁⟩ := (Wording.spells_sign (by decide)).mp hspells
    obtain ⟨e', hspells₂, hspells₃⟩ := Wording.spells_append.mp (Wording.spells_space.mp hspells₁)
    have hcolon' := ((Wording.spells_sign (by decide)).mp hspells₃).1
    obtain ⟨-, body', hbody', hcopy'⟩ := hbody.again w _ e' d' hspells₃ hfollow
    obtain ⟨test', htest', hcopy⟩ := htest.again w _ e e' hspells₂ (.ofIs hcolon hcolon' (by decide))
    refine ⟨.ofIs his his', hleads.size_lt hspells, .mk (some test') body', caseClause_some.mpr
      ⟨his', e, test', e', body', he, htest', hbody', rfl⟩, ?_⟩
    rw [Copies] at hcopy hcopy' ⊢
    rw [SwitchClause.relabel, SwitchClause.relabel, hcopy, hcopy']

theorem LinesEcho.caseClauses (hinner : inner.Echoes) {xs : List SwitchClause}
    (h : Grammar.caseClauses inner c = .ok (xs, c')) (last : Bool) :
    LinesEcho (Grammar.caseClauses inner) relabelClauses c last (clausesPiecesOf last xs) xs c' := by
  induction xs generalizing c with
  | nil =>
    obtain ⟨hnot, rfl⟩ := caseClause_none.mp (many_nil.mp h)
    refine ⟨.nil, fun _ _ _ hsits => hsits, ?_⟩
    rintro w broken d d' rfl ⟨hpeer, -⟩
    have hnot' := (hpeer.is_eq (by decide)).symm.trans hnot
    exact ⟨hpeer, [], many_nil.mpr (caseClause_none.mpr ⟨hnot', rfl⟩), rfl⟩
  | cons x rest ih =>
    obtain ⟨m, hfirst, -, hrest⟩ := many_cons.mp h
    exact (ClauseEcho.caseClause hinner hfirst _).lines (ih hrest)
      fun y ys d e d' hy hsize hys => many_cons.mpr ⟨e, hy, hsize, hys⟩

/-! ### The default clause -/

theorem defaultClauses_nil : Grammar.defaultClauses inner c = .ok ([], c') ↔
    c.token.is "default" = false ∧ c = c' := by
  constructor
  · intro h
    obtain ⟨-, m, -, h⟩ | ⟨hnot, h⟩ := eat_bind_eq_ok.mp h
    · obtain ⟨body, n, -, h⟩ := bind_eq_ok.mp h
      obtain ⟨after, e, -, h⟩ := bind_eq_ok.mp h
      cases (pure_eq_ok.mp h).1
    · exact ⟨hnot, (pure_eq_ok.mp h).2⟩
  · rintro ⟨hnot, rfl⟩
    exact eat_bind_eq_ok.mpr (.inr ⟨hnot, rfl⟩)

/-- A default clause is read at the first cursor, up to the second one. -/
def ReadsDefault (inner : Inner) (clause : SwitchClause) (c c' : Cursor) : Prop :=
  c.token.is "default" = true ∧ ∃ m body, c.next = .ok m ∧
    Grammar.clauseBody inner m = .ok (body, c') ∧ clause = .mk none body

theorem defaultClauses_cons {clause : SwitchClause} {rest : List SwitchClause} :
    Grammar.defaultClauses inner c = .ok (clause :: rest, c') ↔ ∃ m,
      ReadsDefault inner clause c m ∧ Grammar.caseClauses inner m = .ok (rest, c') := by
  constructor
  · intro h
    obtain ⟨his, m, hnext, h⟩ | ⟨-, h⟩ := eat_bind_eq_ok.mp h
    · obtain ⟨body, n, hbody, h⟩ := bind_eq_ok.mp h
      obtain ⟨after, e, hafter, h⟩ := bind_eq_ok.mp h
      obtain ⟨heq, rfl⟩ := pure_eq_ok.mp h
      obtain ⟨rfl, rfl⟩ := List.cons.inj heq
      exact ⟨n, ⟨his, m, body, hnext, hbody, rfl⟩, hafter⟩
    · cases (pure_eq_ok.mp h).1
  · rintro ⟨n, ⟨his, m, body, hnext, hbody, rfl⟩, hafter⟩
    exact eat_bind_eq_ok.mpr (.inl ⟨his, m, hnext, bind_eq_ok.mpr ⟨body, n, hbody, bind_eq_ok.mpr
      ⟨rest, c', hafter, rfl⟩⟩⟩)

theorem ClauseEcho.defaultClause (hinner : inner.Echoes) {clause : SwitchClause}
    (h : ReadsDefault inner clause c c') (last : Bool) :
    ClauseEcho (ReadsDefault inner) c last clause c' := by
  obtain ⟨his, m, body, hnext, hbody, rfl⟩ := h
  obtain ⟨-, hbody⟩ := LinesEcho.clauseBody hinner hbody last
  have hleads : Leads c (.sign "default" :: clauseBodyPieces last body) c' :=
    .sign his (by decide) hnext hbody.traces
  constructor <;> rw [SwitchClause.pieces_default]
  · exact .layout rfl hleads.traces
  · intro drop rest hcloses hsits
    exact Piece.sits_newline.mpr ((Piece.sits_quiet (by decide)).mpr
      (hbody.sits drop rest hcloses hsits))
  · intro w broken d d' hspells hfollow
    have hspells := Wording.spells_newline.mp hspells
    obtain ⟨his', -, e, he, hspells₁⟩ := (Wording.spells_sign (by decide)).mp hspells
    obtain ⟨-, body', hbody', hcopy⟩ := hbody.again w _ e d' hspells₁ hfollow
    refine ⟨.ofIs his his', hleads.size_lt hspells, .mk none body',
      ⟨his', e, body', he, hbody', rfl⟩, ?_⟩
    rw [Copies] at hcopy ⊢
    rw [SwitchClause.relabel, SwitchClause.relabel, hcopy]

theorem LinesEcho.defaultClauses (hinner : inner.Echoes) {xs : List SwitchClause}
    (h : Grammar.defaultClauses inner c = .ok (xs, c')) (last : Bool) :
    LinesEcho (Grammar.defaultClauses inner) relabelClauses c last (clausesPiecesOf last xs) xs
      c' := by
  cases xs with
  | nil =>
    obtain ⟨hnot, rfl⟩ := defaultClauses_nil.mp h
    refine ⟨.nil, fun _ _ _ hsits => hsits, ?_⟩
    rintro w broken d d' rfl ⟨hpeer, -⟩
    have hnot' := (hpeer.is_eq (by decide)).symm.trans hnot
    exact ⟨hpeer, [], defaultClauses_nil.mpr ⟨hnot', rfl⟩, rfl⟩
  | cons clause rest =>
    obtain ⟨m, hclause, hrest⟩ := defaultClauses_cons.mp h
    exact (ClauseEcho.defaultClause hinner hclause _).lines (LinesEcho.caseClauses hinner hrest last)
      fun y ys d e d' hy _ hys => defaultClauses_cons.mpr ⟨e, hy, hys⟩

/-! ### The whole statement -/

theorem LinesEcho.append {parser parser' : Parser (List SwitchClause)} {last : Bool}
    {xs ys : List SwitchClause}
    (h : LinesEcho parser relabelClauses c (last && ys.isEmpty)
      (clausesPiecesOf (last && ys.isEmpty) xs) xs m)
    (h' : LinesEcho parser' relabelClauses m last (clausesPiecesOf last ys) ys c') :
    LinesEcho (do let xs ← parser; let ys ← parser'; return xs ++ ys) relabelClauses c last
      (clausesPiecesOf last (xs ++ ys)) (xs ++ ys) c' := by
  rw [clausesPiecesOf_append]
  refine ⟨h.traces.append h'.traces, fun drop more hcloses hsits => ?_,
    fun w broken d d' hspells hfollow => ?_⟩
  · rw [List.append_assoc]
    refine h.sits drop _ (fun hlast => ?_) (h'.sits drop more hcloses hsits)
    obtain ⟨rfl, hdropped⟩ := last_item hlast
    exact hcloses hdropped
  · obtain ⟨e, hspells₁, hspells₂⟩ := Wording.spells_append.mp hspells
    obtain ⟨hpeer, zs, hzs, hcopy'⟩ := h'.again w _ e d' hspells₂ hfollow
    have hclosed : ((last && ys.isEmpty) && w.drop) = true → e.token.closesBody = true := by
      intro hlast
      obtain ⟨rfl, hdropped⟩ := last_item hlast
      obtain rfl : e = d' := hspells₂
      exact hfollow.closes hdropped
    obtain ⟨hpeer', us, hus, hcopy⟩ := h.again w _ d e hspells₁ ⟨hpeer, hclosed⟩
    refine ⟨hpeer', us ++ zs, bind_eq_ok.mpr ⟨us, e, hus, bind_eq_ok.mpr ⟨zs, d', hzs, rfl⟩⟩, ?_⟩
    simp only [Copies, relabelClauses_eq, List.map_append] at hcopy hcopy' ⊢
    rw [hcopy, hcopy']

theorem StatementEcho.switch (hinner : inner.Echoes) {s : Statement}
    (his : c.token.is "switch" = true) (h : Grammar.switch inner c = .ok (s, c')) (last : Bool) :
    StatementEcho (Grammar.switch inner) c last s c' := by
  obtain ⟨x, m, hx, h⟩ := bind_eq_ok.mp h
  obtain ⟨hopen, m', hnext, h⟩ := expect_bind_eq_ok.mp h
  obtain ⟨before, n, hbefore, h⟩ := bind_eq_ok.mp h
  obtain ⟨after, n', hafter, h⟩ := bind_eq_ok.mp h
  obtain ⟨hclose, n'', hnext', h⟩ := expect_bind_eq_ok.mp h
  obtain ⟨rfl, rfl⟩ := pure_eq_ok.mp h
  have hhead := ClosedEcho.tested hinner (by decide) his hx
  have hclauses := (LinesEcho.caseClauses hinner hbefore (true && after.isEmpty)).append
    (LinesEcho.defaultClauses hinner hafter true)
  rw [← clausesPieces_eq] at hclauses
  obtain ⟨ls, hls, hpieces⟩ : ∃ ls : List Piece, ls.all Piece.isLayout = true ∧
      ∀ last, (Statement.switch x.1 x.2 (before ++ after)).pieces last =
        (.mapped "switch" x.1 :: .space :: Piece.inParens x.2.pieces) ++ .space :: .sign "\x7b" ::
          .indent :: (clausesPieces (before ++ after) ++ (ls ++ [.sign "\x7d"])) := by
    refine ⟨.dedent :: if (before ++ after).isEmpty then [] else [.newline], ?_, fun last => ?_⟩
    · split <;> rfl
    · rw [Statement.pieces]
      simp
  have hindent : [Piece.indent].all Piece.isLayout = true := rfl
  refine ClosedEcho.statement ⟨hhead.leads.append (.layout rfl (Leads.sign hopen (by decide) hnext
      (.layout rfl (hclauses.traces.append (.layouts hls
        (Leads.sign hclose (by decide) hnext' .nil).traces)))).traces), fun w broken => ?_,
    fun drop rest hsits => ?_, fun w broken d d' hspells => ?_⟩ hpieces last
  · rw [Wording.pending_append]
    show w.pending false (clausesPieces (before ++ after) ++ (ls ++ [.sign "\x7d"])) = false
    rw [← List.append_assoc]
    exact pending_closing
  · rw [List.append_assoc]
    refine hhead.sits drop _ (Piece.sits_space.mpr ((Piece.sits_quiet (by decide)).mpr ?_))
    show Piece.Sits drop ((clausesPieces (before ++ after) ++ (ls ++ [.sign "\x7d"])) ++ rest)
    simp only [List.append_assoc]
    refine hclauses.sits drop _ (fun _ => Piece.closes_layout hls ?_)
      ((Piece.sits_layout hls).mpr ((Piece.sits_quiet (by decide)).mpr hsits))
    rintro spaced q ⟨⟩
    rfl
  · obtain ⟨e, hspells₁, hspells₂⟩ := Wording.spells_append.mp hspells
    obtain ⟨y, hy, hcopy⟩ := hhead.again w broken d e hspells₁
    obtain ⟨hopen', -, e', he', hspells₃⟩ := (Wording.spells_sign (by decide)).mp
      (Wording.spells_space.mp hspells₂)
    obtain ⟨f, hspells₄, hspells₅⟩ := Wording.spells_append.mp (Wording.spells_indent.mp hspells₃)
    simp only [Wording.spells_append, Wording.spells_layout hls] at hspells₅
    obtain ⟨_, rfl, hsign⟩ := hspells₅
    obtain ⟨hclose', -, f', hf', rfl⟩ := (Wording.spells_sign (by decide)).mp hsign
    have hcloses : f.token.closesBody = true := by simp [Token.closesBody, hclose']
    obtain ⟨-, ys, hys, hcopy'⟩ := hclauses.again w _ e' f hspells₄
      ⟨.ofIs hclose hclose', fun _ => hcloses⟩
    obtain ⟨before', g, hbefore', hys⟩ := bind_eq_ok.mp hys
    obtain ⟨after', g', hafter', hys⟩ := bind_eq_ok.mp hys
    obtain ⟨rfl, rfl⟩ := pure_eq_ok.mp hys
    refine ⟨.switch y.1 y.2 (before' ++ after'), bind_eq_ok.mpr ⟨y, e, hy, expect_bind_eq_ok.mpr
      ⟨hopen', e', he', bind_eq_ok.mpr ⟨before', g, hbefore', bind_eq_ok.mpr ⟨after', g', hafter',
        expect_bind_eq_ok.mpr ⟨hclose', f', hf', rfl⟩⟩⟩⟩⟩, ?_⟩
    rw [Copies] at hcopy hcopy' ⊢
    obtain ⟨hpos, hdiscriminant⟩ := Prod.mk.inj hcopy
    rw [Statement.relabel, Statement.relabel, hpos, hdiscriminant, hcopy']

end EcmaPress

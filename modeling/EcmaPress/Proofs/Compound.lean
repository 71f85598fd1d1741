import EcmaPress.Proofs.Statements

/-!
# Echoes of compound statements

The statements that hold other statements. Most of them have a head that ends by a token of its
own and a body at the end, so what may follow the body may follow the whole.
-/

namespace EcmaPress

open EcmaPress.Parser

variable {inner : Inner} {c m n c' : Cursor}

/-! ### Heads and bodies -/

/-- The body of a statement has layout around it. -/
theorem bodyPieces_eq (s : Statement) (ps : List Piece) : ∃ before behind : List Piece,
    before.all Piece.isLayout = true ∧ behind.all Piece.isLayout = true ∧
      s.bodyPieces ps = before ++ (ps ++ behind) := by
  cases s with
  | block => exact ⟨[.space], [], rfl, rfl, by simp [Statement.bodyPieces]⟩
  | empty => exact ⟨[], [], rfl, rfl, by simp [Statement.bodyPieces]⟩
  | _ => exact ⟨[.indent, .newline], [.dedent], rfl, rfl, by simp [Statement.bodyPieces]⟩

/-- A statement whose last part is another statement. -/
theorem StatementEcho.headed {parser : Parser Statement} {ps before behind : List Piece}
    {body s : Statement} {last : Bool} (hbefore : before.all Piece.isLayout = true)
    (hbehind : behind.all Piece.isLayout = true)
    (hpieces : s.pieces last = ps ++ (before ++ (body.pieces last ++ behind)))
    (hleads : Leads c ps m)
    (hsits : ∀ drop rest, Piece.Sits drop rest → Piece.Sits drop (ps ++ rest))
    (hbody : StatementEcho inner.statement m last body c')
    (hagain : ∀ (w : Wording) broken d e d' y, w.Spells broken ps d e →
      c'.token.Parallel d'.token → inner.statement e = .ok (y, d') →
      Copies Statement.relabel w y body →
      ∃ z, parser d = .ok (z, d') ∧ Copies Statement.relabel w z s) :
    StatementEcho parser c last s c' := by
  constructor
  · rw [hpieces]
    exact hleads.append (.layouts hbefore (hbody.leads.traces.append (.ofLayout hbehind)))
  · intro drop rest hcloses hrest
    rw [hpieces]
    simp only [List.append_assoc]
    refine hsits drop _ ((Piece.sits_layout hbefore).mpr (hbody.sits drop _ (fun hlast => ?_) ?_))
    · exact Piece.closes_layout hbehind (hcloses hlast)
    · exact (Piece.sits_layout hbehind).mpr hrest
  · intro w broken d d' hspells hfollow
    rw [hpieces] at hspells
    obtain ⟨e, hps, hspells'⟩ := Wording.spells_append.mp hspells
    simp only [Wording.spells_append, Wording.spells_layout hbefore,
      Wording.spells_layout hbehind] at hspells'
    obtain ⟨_, rfl, _, hspells', rfl⟩ := hspells'
    obtain ⟨y, hy, hcopy⟩ := hbody.again w _ _ _ hspells' hfollow
    exact hagain w broken d _ _ y hps hfollow.parallel hy hcopy

/-- The echo of a statement with the keyword behind it. -/
structure KeywordEcho (parser : Parser Statement) (k : String) (c : Cursor) (ps : List Piece)
    (s : Statement) (c' : Cursor) : Prop where
  traces : Traces c ps c'
  sits : ∀ drop rest, Piece.Sits drop rest → Piece.Sits drop (ps ++ rest)
  again : ∀ (w : Wording) broken d d', w.Spells broken ps d d' → ∃ y e, parser d = .ok (y, e) ∧
    Copies Statement.relabel w y s ∧ e.token.is k = true ∧ e.next = .ok d'

theorem StatementEcho.before {parser : Parser Statement} {k : String} {body : Statement}
    (h : StatementEcho parser c false body m) (hk : isKeyword k = true)
    (his : m.token.is k = true) (hnext : m.next = .ok c') :
    KeywordEcho parser k c
      (body.bodyPieces (body.pieces false) ++ [body.afterBody, .sign k]) body c' := by
  simp only [isKeyword, Bool.and_eq_true, bne_iff_ne] at hk
  obtain ⟨⟨hquiet, hfirm⟩, hcomma⟩ := hk
  have hword := isWord_of_isFirm hfirm
  obtain ⟨before, behind, hbefore, hbehind, hpieces⟩ := bodyPieces_eq body (body.pieces false)
  have hafter : [body.afterBody].all Piece.isLayout = true := by
    unfold Statement.afterBody
    cases body.isBlock <;> rfl
  rw [hpieces, show [body.afterBody, .sign k] = [body.afterBody] ++ [.sign k] from rfl]
  refine ⟨?_, fun drop rest hsits => ?_, fun w broken d d' hspells => ?_⟩
  · rw [List.append_assoc, List.append_assoc]
    exact .layouts hbefore (h.leads.traces.append (.layouts hbehind (.layouts hafter
      (Leads.sign his hcomma hnext .nil).traces)))
  · simp only [List.append_assoc]
    refine (Piece.sits_layout hbefore).mpr (h.sits drop _ (fun hlast => absurd hlast Bool.false_ne_true) ?_)
    exact (Piece.sits_layout hbehind).mpr ((Piece.sits_layout hafter).mpr
      ((Piece.sits_quiet hquiet).mpr hsits))
  · simp only [Wording.spells_append, Wording.spells_layout hbefore,
      Wording.spells_layout hbehind, Wording.spells_layout hafter] at hspells
    obtain ⟨_, ⟨_, rfl, e, hspells, rfl⟩, _, rfl, hsign⟩ := hspells
    obtain ⟨his', -, e', he', rfl⟩ := (Wording.spells_sign hword).mp hsign
    obtain ⟨y, hy, hcopy⟩ := h.again w _ d e hspells
      ⟨(Token.Peer.ofIs his his').parallel, fun hlast => absurd hlast Bool.false_ne_true⟩
    exact ⟨y, e, hy, hcopy, his', he'⟩

theorem ClosedEcho.tested (hinner : inner.Echoes) {k : String} {x : Position × Expression}
    (hk : isKeyword k = true) (his : c.token.is k = true)
    (h : Grammar.tested inner c = .ok (x, c')) :
    ClosedEcho (Grammar.tested inner) (fun r => Prod.map r.place (Expression.relabel r)) c
      (.mapped k x.1 :: .space :: Piece.inParens x.2.pieces) x c' := by
  simp only [isKeyword, Bool.and_eq_true, bne_iff_ne] at hk
  obtain ⟨⟨hquiet, hfirm⟩, hcomma⟩ := hk
  obtain ⟨m, hnext, h⟩ := advance_bind_eq_ok.mp h
  obtain ⟨test, n, htest, h⟩ := bind_eq_ok.mp h
  obtain ⟨rfl, rfl⟩ := pure_eq_ok.mp h
  have htest := ClosedEcho.parenthesized hinner htest
  refine ⟨.mapped his hcomma hnext (.layout rfl htest.leads.traces), fun w broken =>
    htest.firm w false, fun drop rest hsits => (Piece.sits_quiet hquiet).mpr
      (Piece.sits_space.mpr (htest.sits drop rest hsits)), fun w broken d d' hspells => ?_⟩
  obtain ⟨-, -, e, he, hspells'⟩ := (Wording.spells_sign (isWord_of_isFirm hfirm)).mp hspells
  obtain ⟨y, hy, hcopy⟩ := htest.again w _ e d' (Wording.spells_space.mp hspells')
  exact ⟨(d.token.pos, y), advance_bind_eq_ok.mpr ⟨e, he, bind_eq_ok.mpr ⟨y, d', hy, rfl⟩⟩,
    congrArg (Prod.mk Position.start) hcopy⟩

/-! ### Conditions and loops -/

/-- A statement that consists of a keyword, an expression in parentheses and a body. -/
theorem StatementEcho.testedBody (hinner : inner.Echoes) {k : String} {parser : Parser Statement}
    {x : Position × Expression} {body : Statement}
    (make : Position × Expression → Statement → Statement) (hk : isKeyword k = true) (his : c.token.is k = true)
    (hx : Grammar.tested inner c = .ok (x, m)) (hbody : inner.statement m = .ok (body, c'))
    {last : Bool} (hpieces : (make x body).pieces last = .mapped k x.1 :: .space ::
      Piece.inParens x.2.pieces ++ body.bodyPieces (body.pieces last))
    (hparser : ∀ d e d' x y, Grammar.tested inner d = .ok (x, e) →
      inner.statement e = .ok (y, d') → c'.token.Parallel d'.token → parser d = .ok (make x y, d'))
    (hmake : ∀ r x y, (make x y).relabel r =
      make (Prod.map r.place (Expression.relabel r) x) (y.relabel r)) :
    StatementEcho parser c last (make x body) c' := by
  have hhead := ClosedEcho.tested hinner hk his hx
  obtain ⟨before, behind, hbefore, hbehind, hlayout⟩ := bodyPieces_eq body (body.pieces last)
  rw [hlayout] at hpieces
  refine .headed hbefore hbehind hpieces hhead.leads hhead.sits
    (hinner.statement _ _ _ hbody last) fun w broken d e d' y hspells hparallel hy hcopy => ?_
  obtain ⟨x', hx', hcopy'⟩ := hhead.again w broken d e hspells
  refine ⟨make x' y, hparser d e d' x' y hx' hy hparallel, ?_⟩
  rw [Copies] at hcopy hcopy' ⊢
  rw [hmake, hmake, hcopy, hcopy']

theorem StatementEcho.whileDo (hinner : inner.Echoes) {s : Statement}
    (his : c.token.is "while" = true) (h : Grammar.whileDo inner c = .ok (s, c')) (last : Bool) :
    StatementEcho (Grammar.whileDo inner) c last s c' := by
  obtain ⟨x, m, hx, h⟩ := bind_eq_ok.mp h
  obtain ⟨body, n, hbody, h⟩ := bind_eq_ok.mp h
  obtain ⟨rfl, rfl⟩ := pure_eq_ok.mp h
  exact .testedBody hinner (fun x body => .whileDo x.1 x.2 body) (by decide) his hx hbody
    (by rw [Statement.pieces])
    (fun d e d' x y hx hy _ => bind_eq_ok.mpr ⟨x, e, hx, bind_eq_ok.mpr ⟨y, d', hy, rfl⟩⟩)
    fun r x y => by rw [Statement.relabel]; rfl

theorem StatementEcho.withObject (hinner : inner.Echoes) {s : Statement}
    (his : c.token.is "with" = true) (h : Grammar.withObject inner c = .ok (s, c')) (last : Bool) :
    StatementEcho (Grammar.withObject inner) c last s c' := by
  obtain ⟨x, m, hx, h⟩ := bind_eq_ok.mp h
  obtain ⟨body, n, hbody, h⟩ := bind_eq_ok.mp h
  obtain ⟨rfl, rfl⟩ := pure_eq_ok.mp h
  exact .testedBody hinner (fun x body => .withObject x.1 x.2 body) (by decide) his hx hbody
    (by rw [Statement.pieces])
    (fun d e d' x y hx hy _ => bind_eq_ok.mpr ⟨x, e, hx, bind_eq_ok.mpr ⟨y, d', hy, rfl⟩⟩)
    fun r x y => by rw [Statement.relabel]; rfl

theorem elseBranch_none : Grammar.elseBranch inner c = .ok (none, c') ↔
    c.token.is "else" = false ∧ c = c' :=
  ifEat_eq_none

theorem elseBranch_some {s : Statement} : Grammar.elseBranch inner c = .ok (some s, c') ↔
    c.token.is "else" = true ∧ ∃ m, c.next = .ok m ∧ inner.statement m = .ok (s, c') :=
  ifEat_eq_some

/-- An `else` is followed by another `if` on the same line, or by a body. -/
theorem elsePieces_eq (s : Statement) (ps : List Piece) : ∃ before behind : List Piece,
    before.all Piece.isLayout = true ∧ behind.all Piece.isLayout = true ∧
      (if s.isIf then .space :: ps else s.bodyPieces ps) = before ++ (ps ++ behind) := by
  split
  · exact ⟨[.space], [], rfl, rfl, by simp⟩
  · exact bodyPieces_eq s ps

theorem StatementEcho.ifElse (hinner : inner.Echoes) {s : Statement}
    (his : c.token.is "if" = true) (h : Grammar.ifElse inner c = .ok (s, c')) (last : Bool) :
    StatementEcho (Grammar.ifElse inner) c last s c' := by
  obtain ⟨x, m, hx, h⟩ := bind_eq_ok.mp h
  obtain ⟨body, n, hbody, h⟩ := bind_eq_ok.mp h
  obtain ⟨alternate, n', halternate, h⟩ := bind_eq_ok.mp h
  obtain ⟨rfl, rfl⟩ := pure_eq_ok.mp h
  cases alternate with
  | none =>
    obtain ⟨hnot, rfl⟩ := elseBranch_none.mp halternate
    refine .testedBody hinner (fun x body => .ifElse x.1 x.2 body none) (by decide) his hx hbody
      (by rw [Statement.pieces]) (fun d e d' x y hx hy hparallel => ?_)
      fun r x y => by rw [Statement.relabel]; rfl
    have hnot' := (hparallel _ (by decide)).symm.trans hnot
    exact bind_eq_ok.mpr ⟨x, e, hx, bind_eq_ok.mpr ⟨y, d', hy, bind_eq_ok.mpr
      ⟨none, d', elseBranch_none.mpr ⟨hnot', rfl⟩, rfl⟩⟩⟩
  | some alternate =>
    obtain ⟨helse, m', hnext, halternate⟩ := elseBranch_some.mp halternate
    have hhead := ClosedEcho.tested hinner (by decide) his hx
    have hthen := (hinner.statement _ _ _ hbody false).before (by decide) helse hnext
    obtain ⟨before, behind, hbefore, hbehind, hlayout⟩ :=
      elsePieces_eq alternate (alternate.pieces last)
    have hpieces : (Statement.ifElse x.1 x.2 body (some alternate)).pieces last =
        (.mapped "if" x.1 :: .space :: Piece.inParens x.2.pieces ++
          (body.bodyPieces (body.pieces false) ++ [body.afterBody, .sign "else"])) ++
            (before ++ (alternate.pieces last ++ behind)) := by
      rw [Statement.pieces, ← hlayout]
      simp only [List.append_assoc]
    refine .headed hbefore hbehind hpieces (hhead.leads.append hthen.traces)
      (fun drop rest hsits => ?_) (hinner.statement _ _ _ halternate last)
      fun w broken d e d' y hspells hparallel hy hcopy => ?_
    · rw [List.append_assoc]
      exact hhead.sits drop _ (hthen.sits drop rest hsits)
    · obtain ⟨e', hspells₁, hspells₂⟩ := Wording.spells_append.mp hspells
      obtain ⟨x', hx', hcopy'⟩ := hhead.again w broken d e' hspells₁
      obtain ⟨body', n', hbody', hcopy'', his', hn'⟩ := hthen.again w _ e' e hspells₂
      refine ⟨.ifElse x'.1 x'.2 body' (some y), bind_eq_ok.mpr ⟨x', e', hx', bind_eq_ok.mpr
        ⟨body', n', hbody', bind_eq_ok.mpr ⟨some y, d', elseBranch_some.mpr ⟨his', e, hn', hy⟩,
          rfl⟩⟩⟩, ?_⟩
      rw [Copies] at hcopy hcopy' hcopy'' ⊢
      obtain ⟨hpos, htest⟩ := Prod.mk.inj hcopy'
      rw [Statement.relabel, Statement.relabel, hpos, htest, hcopy'', hcopy]

theorem StatementEcho.doWhile (hinner : inner.Echoes) {s : Statement}
    (his : c.token.is "do" = true) (h : Grammar.doWhile inner c = .ok (s, c')) (last : Bool) :
    StatementEcho (Grammar.doWhile inner) c last s c' := by
  obtain ⟨m, hnext, h⟩ := advance_bind_eq_ok.mp h
  obtain ⟨body, n, hbody, h⟩ := bind_eq_ok.mp h
  obtain ⟨hwhile, n', hnext', h⟩ := expect_bind_eq_ok.mp h
  obtain ⟨test, n'', htest, h⟩ := bind_eq_ok.mp h
  obtain ⟨eaten, _, heat, h⟩ := bind_eq_ok.mp h
  obtain ⟨rfl, rfl⟩ := pure_eq_ok.mp h
  have hbody := (hinner.statement _ _ _ hbody false).before (by decide) hwhile hnext'
  have htest := ClosedEcho.parenthesized hinner htest
  have hpieces : ∀ last, (Statement.doWhile c.token.pos body test).pieces last =
      .mapped "do" c.token.pos :: (body.bodyPieces (body.pieces false) ++
        [body.afterBody, .sign "while"] ++ .space :: Piece.inParens test.pieces) ++
          [.terminator last] := by
    intro last
    rw [Statement.pieces]
    simp
  refine .terminated hpieces (.mapped his (by decide) hnext
    (hbody.traces.append (.layout rfl htest.leads.traces))) (eat_skips heat)
    (fun drop rest _ hsits => ?_) (fun w broken d e d' hspells hends hskips => ?_) last
  · refine (Piece.sits_quiet (by decide)).mpr ?_
    show Piece.Sits drop ((body.bodyPieces (body.pieces false) ++
      [body.afterBody, .sign "while"] ++ .space :: Piece.inParens test.pieces) ++ rest)
    rw [List.append_assoc]
    exact hbody.sits drop _ (htest.sits drop rest hsits)
  · obtain ⟨-, -, m', hm', hspells₁⟩ := (Wording.spells_sign (by decide)).mp hspells
    obtain ⟨e', hspells₂, hspells₃⟩ := Wording.spells_append.mp hspells₁
    obtain ⟨body', n', hbody', hcopy, his', hn'⟩ := hbody.again w _ m' e' hspells₂
    obtain ⟨test', htest', hcopy'⟩ := htest.again w _ e' e (Wording.spells_space.mp hspells₃)
    obtain ⟨eaten', heat'⟩ := hskips.eat
    refine ⟨.doWhile d.token.pos body' test', advance_bind_eq_ok.mpr ⟨m', hm', bind_eq_ok.mpr
      ⟨body', n', hbody', expect_bind_eq_ok.mpr ⟨his', e', hn', bind_eq_ok.mpr ⟨test', e, htest',
        bind_eq_ok.mpr ⟨eaten', d', heat', rfl⟩⟩⟩⟩⟩, ?_⟩
    rw [Copies] at hcopy hcopy' ⊢
    rw [Statement.relabel, Statement.relabel, hcopy, hcopy']
    rfl

/-! ### Expressions and labels -/

theorem expressionStatement_cases {s : Statement}
    (h : Grammar.expressionStatement inner c = .ok (s, c')) :
    ∃ x m, Grammar.expression inner false c = .ok (x, m) ∧
      ((∃ label n body, x = .identifier label ∧ m.token.is ":" = true ∧ m.next = .ok n ∧
          inner.statement n = .ok (body, c') ∧ s = .labeled label body) ∨
        semicolon m = .ok ((), c') ∧ s = .expression x) := by
  obtain ⟨x, m, hx, h⟩ := bind_eq_ok.mp h
  refine ⟨x, m, hx, ?_⟩
  rw [peek_bind] at h
  generalize hcolon : m.token.is ":" = colon at h
  split at h
  · obtain ⟨n, hnext, h⟩ := advance_bind_eq_ok.mp h
    obtain ⟨body, n', hbody, h⟩ := bind_eq_ok.mp h
    obtain ⟨rfl, rfl⟩ := pure_eq_ok.mp h
    exact .inl ⟨_, n, body, rfl, rfl, hnext, hbody, rfl⟩
  · obtain ⟨_, n, hsemi, h⟩ := bind_eq_ok.mp h
    obtain ⟨rfl, rfl⟩ := pure_eq_ok.mp h
    exact .inr ⟨hsemi, rfl⟩

theorem expressionStatement_labeled {label : Identifier} {body : Statement}
    (hx : Grammar.expression inner false c = .ok (.identifier label, m))
    (hcolon : m.token.is ":" = true) (hnext : m.next = .ok n)
    (hbody : inner.statement n = .ok (body, c')) :
    Grammar.expressionStatement inner c = .ok (.labeled label body, c') := by
  refine bind_eq_ok.mpr ⟨_, m, hx, ?_⟩
  rw [peek_bind, hcolon]
  exact advance_bind_eq_ok.mpr ⟨n, hnext, bind_eq_ok.mpr ⟨body, c', hbody, rfl⟩⟩

theorem expressionStatement_expression {x : Expression}
    (hx : Grammar.expression inner false c = .ok (x, m)) (hcolon : m.token.is ":" = false)
    (hsemi : semicolon m = .ok ((), c')) :
    Grammar.expressionStatement inner c = .ok (.expression x, c') := by
  refine bind_eq_ok.mpr ⟨_, m, hx, ?_⟩
  rw [peek_bind, hcolon]
  cases x <;> exact bind_eq_ok.mpr ⟨(), c', hsemi, rfl⟩

/-- A single name has been read as one token. -/
theorem Leads.identifier {id : Identifier} (h : Leads c [.name id] m) :
    Parser.identifier c = .ok (id, m) := by
  obtain ⟨t, n, p, qs, heq, -, htake, hfits, hstands, -, ts, hreads, haligned⟩ := h
  obtain ⟨rfl, rfl⟩ := List.cons.inj heq
  obtain ⟨htext, hid⟩ := hfits
  obtain rfl := haligned.nil_right
  cases hreads
  cases htake with
  | plain hkind hend hnext =>
    refine identifier_eq_ok.mpr ⟨hid, ?_, hnext⟩
    cases id
    simp only [Piece.text, Wording.original, Option.some.injEq, Piece.StandsFor] at htext hstands
    rw [htext, hstands]
  | regex _ hr =>
    obtain ⟨k, -, htoken, -⟩ := Cursor.asRegex_eq_ok.mp hr
    exact absurd (by rw [htoken]; rfl) (Token.isIdentifier_kind hid).1

theorem StatementEcho.labeled (hinner : inner.Echoes) {label : Identifier} {body : Statement}
    (hx : Grammar.expression inner false c = .ok (.identifier label, m))
    (hcolon : m.token.is ":" = true) (hnext : m.next = .ok n)
    (hbody : inner.statement n = .ok (body, c')) (last : Bool) :
    StatementEcho (Grammar.expressionStatement inner) c last (.labeled label body) c' := by
  have hecho := Echo.expression hinner hx
  rw [Expression.pieces] at hecho
  have hlabel := Echo.label hecho.leads.identifier
  have hspace : [Piece.space].all Piece.isLayout = true := rfl
  have hpieces : (Statement.labeled label body).pieces last =
      ([.mapped label.name label.pos] ++ [.sign ":"]) ++ ([.space] ++ (body.pieces last ++ [])) := by
    rw [Statement.pieces]
    simp
  refine .headed hspace rfl hpieces
    (hlabel.leads.append (Leads.sign hcolon (by decide) hnext .nil).traces)
    (fun drop rest hsits => ?_) (hinner.statement _ _ _ hbody last)
    fun w broken d e d' y hspells hparallel hy hcopy => ?_
  · rw [List.append_assoc]
    exact hlabel.sits drop _ (Piece.calm_sign (by decide)) ((Piece.sits_quiet (by decide)).mpr hsits)
  · obtain ⟨m', hname, hspells'⟩ := Wording.spells_append.mp hspells
    obtain ⟨hcolon', -, e', he', rfl⟩ := (Wording.spells_sign (by decide)).mp hspells'
    have hfollow := Token.FollowsExpression.ofIs hcolon hcolon' (by decide)
    obtain ⟨y', hy', -⟩ := hlabel.again w broken d m' hname hfollow
    have hid' := (identifier_eq_ok.mp hy').1
    obtain ⟨htext, -, -, hline, m'', hm'', rfl⟩ := (Wording.spells_token (by decide)).mp hname
    -- The name of a label is worded as it is, whatever other names become.
    obtain ⟨z, hz, hcopy'⟩ := hecho.again ⟨Identifier.name, w.drop⟩ broken d m''
      (Wording.spells_name.mpr ⟨hid', htext, hline, m'', hm'', rfl⟩) hfollow
    cases z with
    | identifier id =>
      refine ⟨.labeled id y, expressionStatement_labeled hz hcolon' he' hy, ?_⟩
      have hlabels := Expression.identifier.inj hcopy'
      rw [Copies] at hcopy ⊢
      rw [Statement.relabel, Statement.relabel, hcopy]
      exact congrArg (Statement.labeled · _) hlabels
    | _ => cases hcopy'

theorem StatementEcho.expression (hinner : inner.Echoes) {x : Expression}
    (hx : Grammar.expression inner false c = .ok (x, m)) (hsemi : semicolon m = .ok ((), c'))
    (last : Bool) :
    StatementEcho (Grammar.expressionStatement inner) c last (.expression x) c' := by
  have hecho := Echo.expression hinner hx
  refine .terminated (fun last => by rw [Statement.pieces]) hecho.leads (semicolon_skips hsemi)
    hecho.sits (fun w broken d e d' hspells hends hskips => ?_) last
  have hstops := Token.endsStatement_stops hends
  obtain ⟨y, hy, hcopy⟩ := hecho.again w broken d e hspells (.inl hstops)
  have hcolon : e.token.is ":" = false := Token.stops_is hstops (by decide)
  exact ⟨.expression y, expressionStatement_expression hy hcolon (hskips.semicolon hends),
    congrArg Statement.expression hcopy⟩

theorem StatementEcho.expressionStatement (hinner : inner.Echoes) {s : Statement}
    (h : Grammar.expressionStatement inner c = .ok (s, c')) (last : Bool) :
    StatementEcho (Grammar.expressionStatement inner) c last s c' := by
  obtain ⟨x, m, hx, ⟨label, n, body, rfl, hcolon, hnext, hbody, rfl⟩ | ⟨hsemi, rfl⟩⟩ :=
    expressionStatement_cases h
  · exact .labeled hinner hx hcolon hnext hbody last
  · exact .expression hinner hx hsemi last

/-! ### Blocks and functions -/

theorem StatementEcho.block (hinner : inner.Echoes) {s : Statement}
    (h : (do return .block (← Grammar.block inner) : Parser Statement) c = .ok (s, c'))
    (last : Bool) :
    StatementEcho (do return .block (← Grammar.block inner)) c last s c' := by
  obtain ⟨body, m, hbody, h⟩ := bind_eq_ok.mp h
  obtain ⟨rfl, rfl⟩ := pure_eq_ok.mp h
  have hecho := ClosedEcho.block hinner hbody
  refine ClosedEcho.statement ⟨hecho.leads, hecho.firm, hecho.sits, fun w broken d d' hspells => ?_⟩
    (fun last => by rw [Statement.pieces]) last
  obtain ⟨y, hy, hcopy⟩ := hecho.again w broken d d' hspells
  exact ⟨.block y, bind_eq_ok.mpr ⟨y, d', hy, rfl⟩, congrArg Statement.block hcopy⟩

theorem StatementEcho.empty {s : Statement} (his : c.token.is ";" = true)
    (h : (do let _ ← advance; return .empty : Parser Statement) c = .ok (s, c')) (last : Bool) :
    StatementEcho (do let _ ← advance; return .empty) c last s c' := by
  obtain ⟨m, hnext, h⟩ := advance_bind_eq_ok.mp h
  obtain ⟨rfl, rfl⟩ := pure_eq_ok.mp h
  refine ClosedEcho.statement ⟨.sign his (by decide) hnext .nil, fun _ _ => rfl,
    fun drop rest hsits => (Piece.sits_quiet (by decide)).mpr hsits,
    fun w broken d d' hspells => ?_⟩ (fun last => by rw [Statement.pieces]) last
  obtain ⟨-, -, n, hn, rfl⟩ := (Wording.spells_sign (by decide)).mp hspells
  exact ⟨.empty, advance_bind_eq_ok.mpr ⟨n, hn, rfl⟩, rfl⟩

theorem StatementEcho.function (hinner : inner.Echoes) {s : Statement}
    (his : c.token.is "function" = true) (h : Grammar.functionDeclaration inner c = .ok (s, c'))
    (last : Bool) : StatementEcho (Grammar.functionDeclaration inner) c last s c' := by
  obtain ⟨m, hnext, h⟩ := advance_bind_eq_ok.mp h
  rw [peek_bind] at h
  rcases ite_eq_ok.mp h with ⟨-, h⟩ | ⟨-, h⟩
  · cases fail_eq_ok.mp h
  · obtain ⟨id, n, hid, h⟩ := bind_eq_ok.mp h
    obtain ⟨parts, n', hparts, h⟩ := bind_eq_ok.mp h
    obtain ⟨rfl, rfl⟩ := pure_eq_ok.mp h
    have hid := ClosedEcho.identifier hid
    have hparts := ClosedEcho.functionParts hinner (fun _ _ _ => ClosedEcho.parameters) hparts
    have hpieces : ∀ last, (Statement.function
        (.mk c.token.pos (some id) parts.1 parts.2)).pieces last =
          .mapped "function" c.token.pos :: .space :: .name id :: partsPieces parts := by
      intro last
      rw [Statement.pieces, Function.pieces_eq]
      rfl
    have hleads : Leads c (.mapped "function" c.token.pos :: .space :: .name id ::
        partsPieces parts) n' :=
      .mapped his (by decide) hnext (.layout rfl (hid.leads.append hparts.leads.traces).traces)
    refine ClosedEcho.statement ⟨hleads, fun w broken => hparts.firm w false,
      fun drop rest hsits => (Piece.sits_quiet (by decide)).mpr (hparts.sits drop rest hsits),
      fun w broken d d' hspells => ?_⟩ hpieces last
    obtain ⟨-, -, m', hm', hspells₁⟩ := (Wording.spells_sign (by decide)).mp hspells
    obtain ⟨n', hspells₂, hspells₃⟩ := Wording.spells_append.mp
      (show w.Spells false ([.name id] ++ partsPieces parts) m' d' from
        Wording.spells_space.mp hspells₁)
    obtain ⟨y, hy, hcopy⟩ := hid.again w _ m' n' hspells₂
    obtain ⟨parts', hparts', hcopy'⟩ := hparts.again w _ n' d' hspells₃
    have hword := (identifier_eq_ok.mp hy).1
    have hparen : m'.token.is "(" = false := Token.is_of_isIdentifier
      (Cursor.spelled (Token.isIdentifier_kind hword).1) hword (by decide)
    refine ⟨.function (.mk d.token.pos (some y) parts'.1 parts'.2),
      advance_bind_eq_ok.mpr ⟨m', hm', ?_⟩, ?_⟩
    · rw [peek_bind]
      exact ite_eq_ok.mpr (.inr ⟨by simp [hparen], bind_eq_ok.mpr ⟨y, n', hy, bind_eq_ok.mpr
        ⟨parts', d', hparts', rfl⟩⟩⟩)
    · obtain ⟨hparams, hbody⟩ := Prod.mk.inj hcopy'
      simp only [Copies] at hcopy
      simp only [Copies, Statement.relabel, Function.relabel, Option.map_some, hcopy, hparams, hbody]
      rfl

/-! ### Handlers -/

/-- The echo of a part that may be missing, told by the word `k` at its front. -/
structure PartEcho {α : Type} (parser : Parser (Option α)) (relabel : Relabeling → α → α)
    (k : String) (c : Cursor) (ps : List Piece) (x : Option α) (c' : Cursor) : Prop where
  traces : Traces c ps c'
  sits : ∀ drop rest, Piece.Sits drop rest → Piece.Sits drop (ps ++ rest)
  absent : x = none → c = c' ∧ c'.token.is k = false
  present : ∀ (w : Wording) broken d d', x.isSome = true → w.Spells broken ps d d' →
    d.token.is k = true
  again : ∀ (w : Wording) broken d d', w.Spells broken ps d d' →
    (x = none → d'.token.is k = false) →
    ∃ y, parser d = .ok (y, d') ∧ Copies (fun r => Option.map (relabel r)) w y x

/-- The pieces of a final block, if there is one. -/
def finalizerPieces : Option (List Statement) → List Piece
  | none => []
  | some body =>
    [.space, .sign "finally", .space] ++ Piece.inBraces (statementsPieces true body)

/-- The pieces of a handler, if there is one. -/
def handlerPieces : Option CatchClause → List Piece
  | none => []
  | some handler => handler.pieces

theorem PartEcho.finalizer (hinner : inner.Echoes) {x : Option (List Statement)}
    (h : Grammar.finalizer inner c = .ok (x, c')) :
    PartEcho (Grammar.finalizer inner) relabelStatements "finally" c (finalizerPieces x) x c' := by
  cases x with
  | some body =>
    obtain ⟨his, m, hnext, hbody⟩ := ifEat_eq_some.mp h
    have hecho := ClosedEcho.block hinner hbody
    refine ⟨.layout rfl (Leads.sign his (by decide) hnext (.layout rfl hecho.leads.traces)).traces,
      fun drop rest hsits => ?_, (fun heq => nomatch heq), fun w broken d d' _ hspells => ?_,
      fun w broken d d' hspells _ => ?_⟩
    · exact Piece.sits_space.mpr ((Piece.sits_quiet (by decide)).mpr (hecho.sits drop rest hsits))
    · exact ((Wording.spells_sign (by decide)).mp (Wording.spells_space.mp hspells)).1
    · obtain ⟨his', -, m', hm', hspells'⟩ :=
        (Wording.spells_sign (by decide)).mp (Wording.spells_space.mp hspells)
      obtain ⟨y, hy, hcopy⟩ := hecho.again w _ m' d' (Wording.spells_space.mp hspells')
      exact ⟨some y, ifEat_eq_some.mpr ⟨his', m', hm', hy⟩, congrArg some hcopy⟩
  | none =>
    obtain ⟨hnot, rfl⟩ := ifEat_eq_none.mp h
    refine ⟨.nil, fun _ _ hsits => hsits, fun _ => ⟨rfl, hnot⟩, (fun _ _ _ _ hsome => nomatch hsome), ?_⟩
    rintro w broken d d' rfl hnot'
    exact ⟨none, ifEat_eq_none.mpr ⟨hnot' rfl, rfl⟩, rfl⟩

theorem PartEcho.catchClause (hinner : inner.Echoes) {x : Option CatchClause}
    (h : Grammar.catchClause inner c = .ok (x, c')) :
    PartEcho (Grammar.catchClause inner) CatchClause.relabel "catch" c (handlerPieces x) x c' := by
  obtain ⟨his, m, hnext, h⟩ | ⟨hnot, h⟩ := eat_bind_eq_ok.mp h
  · obtain ⟨hopen, n, hnext', h⟩ := expect_bind_eq_ok.mp h
    obtain ⟨param, n', hparam, h⟩ := bind_eq_ok.mp h
    obtain ⟨hclose, n'', hnext'', h⟩ := expect_bind_eq_ok.mp h
    obtain ⟨body, e, hbody, h⟩ := bind_eq_ok.mp h
    obtain ⟨rfl, rfl⟩ := pure_eq_ok.mp h
    have hparam := (Echo.identifier hparam).enclosed (by decide) (by decide) hopen hnext' hclose
      hnext'' none (by simp)
    have hecho := ClosedEcho.block hinner hbody
    have hpieces : handlerPieces (some (.mk param body)) =
        .space :: .sign "catch" :: .space :: ((.sign "(" :: [.name param] ++ [.sign ")"]) ++
          .space :: Piece.inBraces (statementsPieces true body)) := by
      simp [handlerPieces, CatchClause.pieces, Piece.inParens]
    rw [hpieces]
    refine ⟨.layout rfl (Leads.sign his (by decide) hnext (.layout rfl
        (hparam.leads.append (.layout rfl hecho.leads.traces)).traces)).traces,
      fun drop rest hsits => ?_, (fun heq => by cases heq), fun w broken d d' _ hspells => ?_,
      fun w broken d d' hspells _ => ?_⟩
    · refine Piece.sits_space.mpr ((Piece.sits_quiet (by decide)).mpr ?_)
      exact hparam.sits drop _ (hecho.sits drop rest hsits)
    · exact ((Wording.spells_sign (by decide)).mp (Wording.spells_space.mp hspells)).1
    · obtain ⟨his', -, m', hm', hspells₁⟩ :=
        (Wording.spells_sign (by decide)).mp (Wording.spells_space.mp hspells)
      obtain ⟨e', hspells₂, hspells₃⟩ := Wording.spells_append.mp (Wording.spells_space.mp hspells₁)
      obtain ⟨hopen', f, hf, -, y, f', hy, hclose', hf', hcopy⟩ := hparam.again w _ m' e' hspells₂
      obtain ⟨z, hz, hcopy'⟩ := hecho.again w _ e' d' (Wording.spells_space.mp hspells₃)
      refine ⟨some (.mk y z), eat_bind_eq_ok.mpr (.inl ⟨his', m', hm', expect_bind_eq_ok.mpr
        ⟨hopen', f, hf, bind_eq_ok.mpr ⟨y, f', hy, expect_bind_eq_ok.mpr ⟨hclose', e', hf',
          bind_eq_ok.mpr ⟨z, d', hz, rfl⟩⟩⟩⟩⟩), ?_⟩
      rw [Copies] at hcopy hcopy' ⊢
      rw [Option.map_some, Option.map_some, CatchClause.relabel, CatchClause.relabel, hcopy, hcopy']
  · obtain ⟨rfl, rfl⟩ := pure_eq_ok.mp h
    refine ⟨.nil, fun _ _ hsits => hsits, fun _ => ⟨rfl, hnot⟩, (fun _ _ _ _ hsome => by cases hsome), ?_⟩
    rintro w broken d d' rfl hnot'
    exact ⟨none, eat_bind_eq_ok.mpr (.inr ⟨hnot' rfl, rfl⟩), rfl⟩

theorem Copies.isNone {α : Type} {relabel : Relabeling → α → α} {w : Wording} {x y : Option α}
    (h : Copies (fun r => Option.map (relabel r)) w y x) : y.isNone = x.isNone := by
  have h := congrArg Option.isNone h
  simpa using h

theorem StatementEcho.tryCatch (hinner : inner.Echoes) {s : Statement}
    (his : c.token.is "try" = true) (h : Grammar.tryCatch inner c = .ok (s, c')) (last : Bool) :
    StatementEcho (Grammar.tryCatch inner) c last s c' := by
  obtain ⟨m, hnext, h⟩ := advance_bind_eq_ok.mp h
  obtain ⟨body, n, hbody, h⟩ := bind_eq_ok.mp h
  obtain ⟨handler, n', hhandler, h⟩ := bind_eq_ok.mp h
  obtain ⟨final, n'', hfinal, h⟩ := bind_eq_ok.mp h
  rcases ite_eq_ok.mp h with ⟨-, h⟩ | ⟨hboth, h⟩
  · cases unexpected_eq_ok.mp h
  · obtain ⟨rfl, rfl⟩ := pure_eq_ok.mp h
    have hbody := ClosedEcho.block hinner hbody
    have hhandler := PartEcho.catchClause hinner hhandler
    have hfinal := PartEcho.finalizer hinner hfinal
    have hpieces : (Statement.tryCatch c.token.pos body handler final).pieces last =
        .mapped "try" c.token.pos :: .space :: (Piece.inBraces (statementsPieces true body) ++
          (handlerPieces handler ++ finalizerPieces final)) := by
      cases handler <;> cases final <;>
        simp [Statement.pieces, handlerPieces, finalizerPieces]
    constructor
    · rw [hpieces]
      exact .mapped his (by decide) hnext (.layout rfl
        (hbody.leads.append (hhandler.traces.append hfinal.traces)).traces)
    · intro drop rest _ hrest
      rw [hpieces]
      refine (Piece.sits_quiet (by decide)).mpr (Piece.sits_space.mpr ?_)
      show Piece.Sits drop ((Piece.inBraces (statementsPieces true body) ++
          (handlerPieces handler ++ finalizerPieces final)) ++ rest)
      simp only [List.append_assoc]
      exact hbody.sits drop _ (hhandler.sits drop _ (hfinal.sits drop rest hrest))
    · intro w broken d d' hspells hfollow
      rw [hpieces] at hspells
      obtain ⟨-, -, m', hm', hspells₁⟩ := (Wording.spells_sign (by decide)).mp hspells
      obtain ⟨e, hspells₂, hspells₃⟩ := Wording.spells_append.mp (Wording.spells_space.mp hspells₁)
      obtain ⟨e', hspells₄, hspells₅⟩ := Wording.spells_append.mp hspells₃
      obtain ⟨final', hfinal', hcopy''⟩ := hfinal.again w _ e' d' hspells₅ fun hnone =>
        (hfollow.parallel _ (by decide)).symm.trans (hfinal.absent hnone).2
      obtain ⟨handler', hhandler', hcopy'⟩ := hhandler.again w _ e e' hspells₄ fun hnone => by
        have hsome : final.isSome = true := by
          rw [hnone] at hboth
          cases final <;> simp at hboth ⊢
        exact Token.is_unique (hfinal.present w _ e' d' hsome hspells₅) (by decide)
      obtain ⟨body', hbody', hcopy⟩ := hbody.again w _ m' e hspells₂
      refine ⟨.tryCatch d.token.pos body' handler' final', advance_bind_eq_ok.mpr ⟨m', hm',
        bind_eq_ok.mpr ⟨body', e, hbody', bind_eq_ok.mpr ⟨handler', e', hhandler', bind_eq_ok.mpr
          ⟨final', d', hfinal', ite_eq_ok.mpr (.inr ⟨?_, rfl⟩)⟩⟩⟩⟩, ?_⟩
      · rw [hcopy'.isNone, hcopy''.isNone]
        exact hboth
      · rw [Copies] at hcopy hcopy' hcopy'' ⊢
        cases handler <;> cases handler' <;> cases final <;> cases final' <;>
          simp_all [Statement.relabel] <;> rfl

end EcmaPress

import EcmaPress.Proofs.Operators

/-!
# Echoes of simple statements

The statements that hold no other statement. Most of them end in a semicolon, which the source
may leave out and which a copy drops where the statement is the last one of a list.
-/

namespace EcmaPress

open EcmaPress.Parser

variable {inner : Inner} {c m c' : Cursor}

/-! ### The end of a statement -/

/-- A semicolon stands between the cursors, or nothing does. -/
def SkipsSemicolon (c c' : Cursor) : Prop :=
  c.token.is ";" = true ∧ c.next = .ok c' ∨ c.token.is ";" = false ∧ c = c'

/-- Whether a token ends a statement, be it a semicolon or the end of the list around. -/
def Token.endsStatement (t : Token) : Bool :=
  t.is ";" || t.closesBody

theorem Token.endsStatement_stops {t : Token} (h : t.endsStatement = true) : t.stops = true := by
  simp only [endsStatement, closesBody, stops, Bool.or_eq_true] at h ⊢
  rcases h with h | h | h <;> simp [h]

theorem semicolon_skips {x : Unit} (h : semicolon c = .ok (x, c')) : SkipsSemicolon c c' := by
  rcases semicolon_eq_ok.mp h with ⟨his, hnext⟩ | ⟨hnot, rfl, -⟩
  · exact .inl ⟨his, hnext⟩
  · exact .inr ⟨hnot, rfl⟩

theorem eat_skips {eaten : Bool} (h : eat ";" c = .ok (eaten, c')) : SkipsSemicolon c c' := by
  rcases eat_eq_ok.mp h with ⟨his, -, hnext⟩ | ⟨hnot, -, rfl⟩
  · exact .inl ⟨his, hnext⟩
  · exact .inr ⟨hnot, rfl⟩

theorem SkipsSemicolon.semicolon (h : SkipsSemicolon c c')
    (hends : c.token.endsStatement = true) : semicolon c = .ok ((), c') := by
  rcases h with ⟨his, hnext⟩ | ⟨hnot, rfl⟩
  · exact semicolon_eq_ok.mpr (.inl ⟨his, hnext⟩)
  · rw [Token.endsStatement, hnot, Bool.false_or] at hends
    refine semicolon_eq_ok.mpr (.inr ⟨hnot, rfl, ?_⟩)
    rw [Token.closesBody] at hends
    rw [hends, Bool.true_or]

theorem SkipsSemicolon.eat (h : SkipsSemicolon c c') : ∃ eaten, eat ";" c = .ok (eaten, c') := by
  rcases h with ⟨his, hnext⟩ | ⟨hnot, rfl⟩
  · exact ⟨true, eat_eq_ok.mpr (.inl ⟨his, rfl, hnext⟩)⟩
  · exact ⟨false, eat_eq_ok.mpr (.inr ⟨hnot, rfl, rfl⟩)⟩

/-- The semicolon of a statement, be it there or not. -/
theorem SkipsSemicolon.traces (h : SkipsSemicolon c c') (last : Bool) :
    Traces c [.terminator last] c' := by
  rcases h with ⟨his, hnext⟩ | ⟨-, rfl⟩
  · have htext := (Token.is_iff.mp his).2
    refine ⟨[c.token], (Cursor.Takes.plain (Token.is_kind his) (Token.is_isEnd his) hnext).reads,
      .written ⟨?_, Token.is_kind his⟩ trivial (fun hcomma => ?_) .nil⟩
    · simp [Piece.text, Wording.original, htext]
    · rw [htext] at hcomma
      exact absurd hcomma (by decide)
  · exact ⟨[], .done, .inserted .nil⟩

/-- The end of a statement in a copy. -/
theorem terminator_again {w : Wording} {broken last : Bool} {d d' : Cursor}
    (h : w.Spells broken [.terminator last] d d')
    (hclose : (last && w.drop) = true → d'.token.closesBody = true) :
    d.token.endsStatement = true ∧ SkipsSemicolon d d' := by
  have h := Wording.spells_terminator.mp h
  by_cases hdrop : last = true ∧ w.drop = true
  · rw [if_pos hdrop] at h
    obtain rfl : d = d' := h
    have hcloses := hclose (by simp [hdrop])
    refine ⟨by simp [Token.endsStatement, hcloses], .inr ⟨?_, rfl⟩⟩
    simp only [Token.closesBody, Bool.or_eq_true] at hcloses
    rcases hcloses with his | hend
    · exact Token.is_unique his (by decide)
    · rw [Bool.eq_false_iff]
      intro his
      rw [Token.is_isEnd his] at hend
      cases hend
  · rw [if_neg hdrop] at h
    obtain ⟨his, m, hnext, rfl⟩ := h
    exact ⟨by simp [Token.endsStatement, his], .inl ⟨his, hnext⟩⟩

theorem calm_terminator {drop last : Bool} {rest : List Piece}
    (h : (last && drop) = true → Piece.Closes drop rest) :
    Piece.Calm drop (.terminator last :: rest) := by
  unfold Piece.Calm
  rw [Piece.ahead]
  split
  · next hdrop => exact (h hdrop).calm
  · rfl

/-- A statement that ends in a semicolon. -/
theorem StatementEcho.terminated {parser : Parser Statement} {ps : List Piece} {s : Statement}
    (hpieces : ∀ last, s.pieces last = ps ++ [.terminator last]) (hleads : Leads c ps m)
    (hskips : SkipsSemicolon m c')
    (hsits : ∀ drop rest, Piece.Calm drop rest → Piece.Sits drop rest →
      Piece.Sits drop (ps ++ rest))
    (hagain : ∀ (w : Wording) broken d e d', w.Spells broken ps d e →
      e.token.endsStatement = true → SkipsSemicolon e d' →
      ∃ y, parser d = .ok (y, d') ∧ Copies Statement.relabel w y s) (last : Bool) :
    StatementEcho parser c last s c' := by
  constructor
  · rw [hpieces]
    exact hleads.append (hskips.traces last)
  · intro drop rest hcloses hrest
    rw [hpieces, List.append_assoc]
    exact hsits drop _ (calm_terminator hcloses) hrest
  · intro w broken d d' hspells hfollow
    rw [hpieces] at hspells
    obtain ⟨e, hps, hend⟩ := Wording.spells_append.mp hspells
    obtain ⟨hends, hskips'⟩ := terminator_again hend hfollow.closes
    exact hagain w broken d e d' hps hends hskips'

/-- A statement that ends by a token of its own. -/
theorem ClosedEcho.statement {parser : Parser Statement} {ps : List Piece} {s : Statement}
    (h : ClosedEcho parser Statement.relabel c ps s c') (hpieces : ∀ last, s.pieces last = ps)
    (last : Bool) : StatementEcho parser c last s c' := by
  constructor
  · rw [hpieces]
    exact h.leads
  · intro drop rest _ hrest
    rw [hpieces]
    exact h.sits drop rest hrest
  · intro w broken d d' hspells _
    rw [hpieces] at hspells
    exact h.again w broken d d' hspells

/-! ### Declarations -/

theorem Echo.declarator (hinner : inner.Echoes) {noIn : Bool} {x : Declarator}
    (h : Grammar.declarator inner noIn c = .ok (x, c')) :
    Echo (Grammar.declarator inner noIn) Declarator.relabel c x.pieces x c' := by
  obtain ⟨id, m, hid, h⟩ := bind_eq_ok.mp h
  have hid := ClosedEcho.identifier hid
  rw [peek_bind] at h
  rcases ite_eq_ok.mp h with ⟨his, h⟩ | ⟨hnot, h⟩
  · obtain ⟨n, hnext, h⟩ := advance_bind_eq_ok.mp h
    obtain ⟨value, n', hvalue, h⟩ := bind_eq_ok.mp h
    obtain ⟨rfl, rfl⟩ := pure_eq_ok.mp h
    have hvalue := hinner.assignment _ _ _ _ hvalue
    have hls : [Piece.space].all Piece.isLayout = true := rfl
    rw [Declarator.pieces]
    refine ⟨hid.leads.append (.layout rfl (Leads.mapped his (by decide) hnext
      (.layout rfl hvalue.leads.traces)).traces), ⟨_, _, rfl, rfl⟩, fun w broken => hvalue.firm w _,
      fun drop rest hcalm hsits => ?_, fun w broken d d' hspells hfollow => ?_⟩
    · exact sits_operator_before (by decide) hls hvalue.opens (some m.token.pos)
        (hvalue.sits drop rest hcalm hsits)
    · obtain ⟨e, hspells₁, hspells₂⟩ := Wording.spells_append.mp
        (show w.Spells broken ([.name id] ++ (.space :: .mapped "=" m.token.pos :: .space ::
          value.pieces)) d d' from hspells)
      obtain ⟨y, hy, hcopy⟩ := hid.again w broken d e hspells₁
      obtain ⟨his', -, e', he', hspells₃⟩ := (Wording.spells_sign (by decide)).mp
        (Wording.spells_space.mp hspells₂)
      obtain ⟨z, hz, hcopy'⟩ := hvalue.again w _ e' d' (Wording.spells_space.mp hspells₃) hfollow
      refine ⟨.init y e.token.pos z, bind_eq_ok.mpr ⟨y, e, hy, ?_⟩, ?_⟩
      · rw [peek_bind]
        exact ite_eq_ok.mpr (.inl ⟨his', advance_bind_eq_ok.mpr ⟨e', he', bind_eq_ok.mpr
          ⟨z, d', hz, rfl⟩⟩⟩)
      · rw [Copies] at hcopy hcopy' ⊢
        rw [Declarator.relabel, Declarator.relabel, hcopy, hcopy']
        rfl
  · obtain ⟨rfl, rfl⟩ := pure_eq_ok.mp h
    rw [Declarator.pieces]
    refine ⟨hid.leads, ⟨_, _, rfl, rfl⟩, hid.firm, fun drop rest _ => hid.sits drop rest,
      fun w broken d d' hspells hfollow => ?_⟩
    obtain ⟨y, hy, hcopy⟩ := hid.again w broken d d' hspells
    refine ⟨.bare y, bind_eq_ok.mpr ⟨y, d', hy, ?_⟩, congrArg Declarator.bare hcopy⟩
    have hnot' := hfollow.is_eq_false (by simpa using hnot) (by decide)
    rw [peek_bind]
    exact ite_eq_ok.mpr (.inr ⟨by simp [hnot'], rfl⟩)

theorem declaratorsPieces_eq (xs : List Declarator) :
    declaratorsPieces xs = separatedPieces Declarator.pieces xs :=
  separatedPieces_eq rfl (fun _ _ => rfl) xs

theorem Echo.declarators (hinner : inner.Echoes) {noIn : Bool} {xs : List Declarator}
    (h : Parser.separated (Grammar.declarator inner noIn) c = .ok (xs, c')) :
    Echo (Parser.separated (Grammar.declarator inner noIn)) relabelDeclarators c
      (declaratorsPieces xs) xs c' := by
  have hrelabel : relabelDeclarators = fun r => List.map (Declarator.relabel r) :=
    funext fun r => funext (relabelDeclarators_eq r)
  rw [hrelabel, declaratorsPieces_eq]
  exact Echo.separated (fun _ _ _ => Echo.declarator hinner) h

/-- A keyword that makes no demand on what follows it. -/
def isKeyword (text : String) : Bool :=
  isQuiet text && isFirm text && text != ","

theorem isWord_of_isFirm {text : String} (h : isFirm text = true) : isWord text = true := by
  unfold isFirm at h
  unfold isWord
  split at h <;> simp_all

/-- A keyword before an expression or a list, with layout between them. -/
theorem StatementEcho.keyword {α : Type} {parser : Parser Statement} {operand : Parser α}
    {relabel : Relabeling → α → α} {k : String} {ls ps : List Piece} {x : α} {s : Statement}
    {n : Cursor} (hk : isKeyword k = true) (his : c.token.is k = true) (hnext : c.next = .ok m)
    (h : Echo operand relabel m ps x n) (hskips : SkipsSemicolon n c')
    (hls : ls.all Piece.isLayout = true)
    (hpieces : ∀ last, s.pieces last = .mapped k c.token.pos :: (ls ++ ps) ++ [.terminator last])
    (hagain : ∀ (w : Wording) (d e n' d' : Cursor) y, d.next = .ok e → m.token.Peer e.token → (e.token.newlineBefore = true → w.pending false ls = true) →
      operand e = .ok (y, n') → Copies relabel w y x → n'.token.endsStatement = true →
      SkipsSemicolon n' d' → ∃ z, parser d = .ok (z, d') ∧ Copies Statement.relabel w z s)
    (last : Bool) : StatementEcho parser c last s c' := by
  simp only [isKeyword, Bool.and_eq_true, bne_iff_ne] at hk
  obtain ⟨⟨hquiet, hfirm⟩, hcomma⟩ := hk
  refine .terminated hpieces (.mapped his hcomma hnext (.layouts hls h.leads.traces)) hskips
    (fun drop rest hcalm hsits => ?_) (fun w broken d e d' hspells hends hskips' => ?_) last
  · refine (Piece.sits_quiet hquiet).mpr ?_
    show Piece.Sits drop ((ls ++ ps) ++ rest)
    rw [List.append_assoc, Piece.sits_layout hls]
    exact h.sits drop rest hcalm hsits
  · obtain ⟨his', -, e', he', hspells'⟩ := (Wording.spells_sign (isWord_of_isFirm hfirm)).mp hspells
    obtain ⟨e'', hlayout, hspells''⟩ := Wording.spells_append.mp hspells'
    obtain rfl := (Wording.spells_layout hls).mp hlayout
    obtain ⟨y, hy, hcopy⟩ := h.again w _ e' e hspells'' (.inl (Token.endsStatement_stops hends))
    exact hagain w d e' e d' y he' (h.leads.peer hspells'')
      (h.leads.newlineBefore hspells'') hy hcopy hends hskips'

theorem StatementEcho.declarations (hinner : inner.Echoes) {s : Statement}
    (his : c.token.is "var" = true) (h : Grammar.declarations inner c = .ok (s, c'))
    (last : Bool) : StatementEcho (Grammar.declarations inner) c last s c' := by
  obtain ⟨m, hnext, h⟩ := advance_bind_eq_ok.mp h
  obtain ⟨xs, n, hxs, h⟩ := bind_eq_ok.mp h
  obtain ⟨_, n', hsemi, h⟩ := bind_eq_ok.mp h
  obtain ⟨rfl, rfl⟩ := pure_eq_ok.mp h
  have hls : ([] : List Piece).all Piece.isLayout = true := rfl
  refine .keyword (by decide) his hnext (Echo.declarators hinner hxs) (semicolon_skips hsemi) hls
    (fun last => by rw [Statement.pieces]; rfl)
    (fun w d e n' d' y hd _ _ hy hcopy hends hskips => ?_) last
  refine ⟨.declarations d.token.pos y, advance_bind_eq_ok.mpr ⟨e, hd, bind_eq_ok.mpr ⟨y, n', hy,
    bind_eq_ok.mpr ⟨(), d', hskips.semicolon hends, rfl⟩⟩⟩, ?_⟩
  exact congrArg (Statement.declarations .start) hcopy

/-! ### Jumps, values and the like -/

/-- A keyword on its own. -/
theorem StatementEcho.keywordOnly {parser : Parser Statement} {k : String} {s : Statement}
    (hk : isKeyword k = true) (his : c.token.is k = true) (hnext : c.next = .ok m)
    (hskips : SkipsSemicolon m c')
    (hpieces : ∀ last, s.pieces last = [.mapped k c.token.pos, .terminator last])
    (hagain : ∀ (w : Wording) (d e d' : Cursor), d.next = .ok e → e.token.endsStatement = true →
      SkipsSemicolon e d' → ∃ z, parser d = .ok (z, d') ∧ Copies Statement.relabel w z s)
    (last : Bool) : StatementEcho parser c last s c' := by
  simp only [isKeyword, Bool.and_eq_true, bne_iff_ne] at hk
  obtain ⟨⟨hquiet, hfirm⟩, hcomma⟩ := hk
  refine .terminated hpieces (.mapped his hcomma hnext .nil) hskips
    (fun drop rest _ hsits => (Piece.sits_quiet hquiet).mpr hsits)
    (fun w broken d e d' hspells hends hskips' => ?_) last
  obtain ⟨-, -, m', hm', rfl⟩ := (Wording.spells_sign (isWord_of_isFirm hfirm)).mp hspells
  exact hagain w d m' d' hm' hends hskips'

theorem StatementEcho.debugger {s : Statement} (his : c.token.is "debugger" = true)
    (h : Grammar.debugger c = .ok (s, c')) (last : Bool) :
    StatementEcho Grammar.debugger c last s c' := by
  obtain ⟨m, hnext, h⟩ := advance_bind_eq_ok.mp h
  obtain ⟨_, n, hsemi, h⟩ := bind_eq_ok.mp h
  obtain ⟨rfl, rfl⟩ := pure_eq_ok.mp h
  refine .keywordOnly (by decide) his hnext (semicolon_skips hsemi)
    (fun last => by rw [Statement.pieces]) (fun w d e d' hd hends hskips => ?_) last
  exact ⟨.debugger d.token.pos, advance_bind_eq_ok.mpr ⟨e, hd, bind_eq_ok.mpr
    ⟨(), d', hskips.semicolon hends, rfl⟩⟩, rfl⟩

theorem StatementEcho.throwValue (hinner : inner.Echoes) {s : Statement}
    (his : c.token.is "throw" = true) (h : Grammar.throwValue inner c = .ok (s, c'))
    (last : Bool) : StatementEcho (Grammar.throwValue inner) c last s c' := by
  obtain ⟨m, hnext, h⟩ := advance_bind_eq_ok.mp h
  rw [peek_bind] at h
  rcases ite_eq_ok.mp h with ⟨-, h⟩ | ⟨-, h⟩
  · cases fail_eq_ok.mp h
  · obtain ⟨x, n, hx, h⟩ := bind_eq_ok.mp h
    obtain ⟨_, n', hsemi, h⟩ := bind_eq_ok.mp h
    obtain ⟨rfl, rfl⟩ := pure_eq_ok.mp h
    have hls : [Piece.space].all Piece.isLayout = true := rfl
    refine .keyword (by decide) his hnext (Echo.expression hinner hx) (semicolon_skips hsemi) hls
      (fun last => by rw [Statement.pieces]; rfl)
      (fun w d e n' d' y hd _ hline hy hcopy hends hskips => ?_) last
    refine ⟨.throwValue d.token.pos y, advance_bind_eq_ok.mpr ⟨e, hd, ?_⟩, ?_⟩
    · have hline' : ¬ e.token.newlineBefore = true := fun h => Bool.noConfusion (hline h)
      rw [peek_bind]
      exact ite_eq_ok.mpr (.inr ⟨hline', bind_eq_ok.mpr ⟨y, n', hy, bind_eq_ok.mpr
        ⟨(), d', hskips.semicolon hends, rfl⟩⟩⟩)
    · exact congrArg (Statement.throwValue .start) hcopy

/-- Whether a token leaves `return` without a value. -/
def Token.endsReturn (t : Token) : Bool :=
  t.is ";" || t.is "\x7d" || t.isEnd || t.newlineBefore

theorem Token.endsReturn_of_ends {t : Token} (h : t.endsStatement = true) :
    t.endsReturn = true := by
  simp only [endsStatement, closesBody, Bool.or_eq_true] at h
  rcases h with h | h | h <;> simp [endsReturn, h]

theorem Token.Peer.endsReturn {t u : Token} (h : t.Peer u) (ht : t.endsReturn = false)
    (hu : u.newlineBefore = true → false = true) : u.endsReturn = false := by
  simp only [Token.endsReturn, Bool.or_eq_false_iff] at ht ⊢
  obtain ⟨⟨⟨hsemi, hbrace⟩, hend⟩, -⟩ := ht
  rw [← h.is_eq (by decide), ← h.is_eq (by decide), isEnd, ← h.kind]
  exact ⟨⟨⟨hsemi, hbrace⟩, hend⟩, by simpa using hu⟩

theorem StatementEcho.returnValue (hinner : inner.Echoes) {s : Statement}
    (his : c.token.is "return" = true) (h : Grammar.returnValue inner c = .ok (s, c'))
    (last : Bool) : StatementEcho (Grammar.returnValue inner) c last s c' := by
  obtain ⟨m, hnext, h⟩ := advance_bind_eq_ok.mp h
  obtain ⟨argument, n, hargument, h⟩ := bind_eq_ok.mp h
  obtain ⟨_, n', hsemi, h⟩ := bind_eq_ok.mp h
  obtain ⟨rfl, rfl⟩ := pure_eq_ok.mp h
  rcases ite_eq_ok.mp hargument with ⟨-, hargument⟩ | ⟨hgo, hargument⟩
  · obtain ⟨rfl, rfl⟩ := pure_eq_ok.mp hargument
    refine .keywordOnly (by decide) his hnext (semicolon_skips hsemi)
      (fun last => by rw [Statement.pieces]; rfl) (fun w d e d' hd hends hskips => ?_) last
    exact ⟨.returnValue d.token.pos none, advance_bind_eq_ok.mpr ⟨e, hd, bind_eq_ok.mpr ⟨none, e,
      ite_eq_ok.mpr (.inl ⟨Token.endsReturn_of_ends hends, rfl⟩), bind_eq_ok.mpr
        ⟨(), d', hskips.semicolon hends, rfl⟩⟩⟩, rfl⟩
  · obtain ⟨x, n'', hx, hargument⟩ := bind_eq_ok.mp hargument
    obtain ⟨rfl, rfl⟩ := pure_eq_ok.mp hargument
    have hls : [Piece.space].all Piece.isLayout = true := rfl
    refine .keyword (by decide) his hnext (Echo.expression hinner hx) (semicolon_skips hsemi) hls
      (fun last => by rw [Statement.pieces]; rfl)
      (fun w d e n' d' y hd hpeer hline hy hcopy hends hskips => ?_) last
    have hgo' : e.token.endsReturn = false := hpeer.endsReturn (Bool.eq_false_iff.mpr hgo) hline
    refine ⟨.returnValue d.token.pos (some y), advance_bind_eq_ok.mpr ⟨e, hd, bind_eq_ok.mpr
      ⟨some y, n', ite_eq_ok.mpr (.inr ⟨Bool.eq_false_iff.mp hgo', bind_eq_ok.mpr ⟨y, n', hy, rfl⟩⟩),
        bind_eq_ok.mpr ⟨(), d', hskips.semicolon hends, rfl⟩⟩⟩, ?_⟩
    exact congrArg (fun y => Statement.returnValue .start (some y)) hcopy

theorem endsStatement_identifier (h : c.token.isIdentifier = true) :
    c.token.endsStatement = false := by
  obtain ⟨hregex, hend⟩ := Token.isIdentifier_kind h
  have hspelled := Cursor.spelled hregex
  simp only [Token.endsStatement, Token.closesBody, hend, Bool.or_false, Bool.or_eq_false_iff]
  exact ⟨Token.is_of_isIdentifier hspelled h (by decide),
    Token.is_of_isIdentifier hspelled h (by decide)⟩

/-- A name that keeps its spelling. -/
theorem Echo.label {id : Identifier} (h : Parser.identifier c = .ok (id, c')) :
    Echo Parser.identifier Relabeling.label c [.mapped id.name id.pos] id c' := by
  obtain ⟨hid, rfl, hnext⟩ := identifier_eq_ok.mp h
  obtain ⟨hregex, hend⟩ := Token.isIdentifier_kind hid
  obtain ⟨hkind, hreserved⟩ := Token.isIdentifier_iff.mp hid
  have hspelled := Cursor.spelled hregex
  refine ⟨.token hregex hend hnext (by decide) (by simp)
    (Token.text_of_isIdentifier hspelled hid (by decide)) .nil,
    ⟨_, [], rfl, hspelled.beginsOperand (by simp [hkind]) hend⟩, fun _ _ => rfl,
    fun drop rest hcalm hsits => Piece.sits_spelled hspelled (by simp [hkind]) hend
      (fun hdigits => ?_) hcalm hsits, fun w broken d d' hspells _ => ?_⟩
  · rw [hspelled.isDigits (by simp [hkind])] at hdigits
    cases hdigits
  · obtain ⟨htext, hregex', -, -, m, hm, rfl⟩ := (Wording.spells_token (by decide)).mp hspells
    have hkind' := (Cursor.spelled hregex').kind_congr hspelled htext
    refine ⟨_, identifier_eq_ok.mpr ⟨?_, rfl, hm⟩, ?_⟩
    · rw [Token.isIdentifier, hkind', htext]
      exact hid
    · simp only [Copies, Relabeling.label, htext]
      rfl

theorem StatementEcho.jump {kind : JumpKind} {s : Statement}
    (his : c.token.is kind.keyword = true) (h : Grammar.jump kind c = .ok (s, c'))
    (last : Bool) : StatementEcho (Grammar.jump kind) c last s c' := by
  obtain ⟨m, hnext, h⟩ := advance_bind_eq_ok.mp h
  obtain ⟨label, n, hlabel, h⟩ := bind_eq_ok.mp h
  obtain ⟨_, n', hsemi, h⟩ := bind_eq_ok.mp h
  obtain ⟨rfl, rfl⟩ := pure_eq_ok.mp h
  rcases ite_eq_ok.mp hlabel with ⟨hgo, hlabel⟩ | ⟨-, hlabel⟩
  · obtain ⟨id, n'', hid, hlabel⟩ := bind_eq_ok.mp hlabel
    obtain ⟨rfl, rfl⟩ := pure_eq_ok.mp hlabel
    have hls : [Piece.space].all Piece.isLayout = true := rfl
    refine .keyword (by cases kind <;> decide) his hnext (Echo.label hid) (semicolon_skips hsemi)
      hls (fun last => by rw [Statement.pieces]; rfl)
      (fun w d e n' d' y hd _ hline hy hcopy hends hskips => ?_) last
    have hgo' : (!e.token.newlineBefore && e.token.isIdentifier) = true := by
      simp only [Bool.and_eq_true, Bool.not_eq_true']
      exact ⟨Bool.eq_false_iff.mpr fun h => Bool.noConfusion (hline h), (identifier_eq_ok.mp hy).1⟩
    refine ⟨.jump kind d.token.pos (some y), advance_bind_eq_ok.mpr ⟨e, hd, bind_eq_ok.mpr
      ⟨some y, n', ite_eq_ok.mpr (.inl ⟨hgo', bind_eq_ok.mpr ⟨y, n', hy, rfl⟩⟩), bind_eq_ok.mpr
        ⟨(), d', hskips.semicolon hends, rfl⟩⟩⟩, ?_⟩
    exact congrArg (fun y => Statement.jump kind .start (some y)) hcopy
  · obtain ⟨rfl, rfl⟩ := pure_eq_ok.mp hlabel
    refine .keywordOnly (by cases kind <;> decide) his hnext (semicolon_skips hsemi)
      (fun last => by rw [Statement.pieces]; rfl) (fun w d e d' hd hends hskips => ?_) last
    have hstop : ¬ (!e.token.newlineBefore && e.token.isIdentifier) = true := by
      intro hgo
      rw [Bool.and_eq_true] at hgo
      rw [endsStatement_identifier hgo.2] at hends
      cases hends
    exact ⟨.jump kind d.token.pos none, advance_bind_eq_ok.mpr ⟨e, hd, bind_eq_ok.mpr ⟨none, e,
      ite_eq_ok.mpr (.inr ⟨hstop, rfl⟩), bind_eq_ok.mpr ⟨(), d', hskips.semicolon hends, rfl⟩⟩⟩, rfl⟩

end EcmaPress

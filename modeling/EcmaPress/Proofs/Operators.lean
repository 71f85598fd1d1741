import EcmaPress.Proofs.Suffixes

/-!
# Echoes of operators

From operators in front of an operand and behind it up to assignments. What makes an operator of
a token is its spelling, so a copy has the same operator; and where no operator follows in the
source, none follows in a copy.
-/

namespace EcmaPress

open EcmaPress.Parser

variable {inner : Inner} {c m c' : Cursor}

/-! ### Spellings of operators -/

namespace Token

variable {t u : Token}

theorem unaryOperator?_eq_some {op : UnaryOperator} :
    t.unaryOperator? = some op ↔ t.is op.symbol = true := by
  unfold unaryOperator?
  simp only [is_iff, Option.ite_none_right_eq_some, UnaryOperator.ofSymbol?_eq_some, Bool.or_eq_true,
    beq_iff_eq]

theorem binaryOperator?_eq_some {noIn : Bool} {op : BinaryOperator} :
    t.binaryOperator? noIn = some op ↔ t.is op.symbol = true ∧ (noIn && t.text == "in") = false := by
  unfold binaryOperator?
  simp only [is_iff, Option.ite_none_left_eq_some, BinaryOperator.ofSymbol?_eq_some, Bool.or_eq_true,
    Bool.not_eq_true', Bool.and_eq_true, beq_iff_eq]
  grind

/-- A sign of punctuation only. -/
theorem Spelled.punct (h : t.Spelled) {s : String} (hs : Token.kindOf s = some .punct) :
    t.kind = .punct ∧ t.text = s ↔ t.is s = true := by
  rw [is_iff]
  refine ⟨fun h => ⟨.inl h.1, h.2⟩, fun h' => ⟨?_, h'.2⟩⟩
  have hkind := h.kindOf
  rw [h'.2, hs] at hkind
  exact (Option.some.inj hkind).symm

theorem Spelled.updateOperator?_eq_some (h : t.Spelled) {op : UpdateOperator} :
    t.updateOperator? = some op ↔ t.is op.symbol = true := by
  rw [← h.punct (by cases op <;> decide)]
  simp only [updateOperator?, Option.ite_none_right_eq_some, UpdateOperator.ofSymbol?_eq_some,
    beq_iff_eq]

theorem Spelled.assignOperator?_eq_some (h : t.Spelled) {op : AssignOperator} :
    t.assignOperator? = some op ↔ t.is op.symbol = true := by
  rw [← h.punct (by cases op <;> decide)]
  simp only [assignOperator?, Option.ite_none_right_eq_some, AssignOperator.ofSymbol?_eq_some,
    beq_iff_eq]

/-- What ends every expression is no operator. -/
theorem operator_of_stops {α : Type} (operator : Token → Option α) {symbol : α → String}
    (his : ∀ t : Token, ∀ op, operator t = some op → t.is (symbol op) = true)
    (hsymbol : ∀ op, symbol op ∉ [";", "\x7d", "]", ")"]) (h : t.stops = true) :
    operator t = none := by
  refine Option.eq_none_iff_forall_ne_some.mpr fun op hop => ?_
  have hnot := stops_is h (hsymbol op)
  rw [his t op hop] at hnot
  cases hnot

theorem updateOperator?_is {op : UpdateOperator} (h : t.updateOperator? = some op) :
    t.is op.symbol = true := by
  simp only [updateOperator?, Option.ite_none_right_eq_some, UpdateOperator.ofSymbol?_eq_some,
    beq_iff_eq] at h
  exact is_iff.mpr ⟨.inl h.1, h.2⟩

theorem assignOperator?_is {op : AssignOperator} (h : t.assignOperator? = some op) :
    t.is op.symbol = true := by
  simp only [assignOperator?, Option.ite_none_right_eq_some, AssignOperator.ofSymbol?_eq_some,
    beq_iff_eq] at h
  exact is_iff.mpr ⟨.inl h.1, h.2⟩

theorem updateOperator?_of_stops (h : t.stops = true) : t.updateOperator? = none :=
  operator_of_stops _ (fun _ _ => updateOperator?_is) (by intro op; cases op <;> decide) h

/-- An operator that does not take an operand before it in the source takes none in a copy. -/
theorem FollowsExpression.updateOperator? (h : t.FollowsExpression u)
    (ht : t.updateOperator?.isSome = true → t.newlineBefore = true)
    (hu : u.updateOperator?.isSome = true) : u.newlineBefore = true := by
  rcases h with hstop | ⟨hsame, hline⟩
  · rw [updateOperator?_of_stops hstop] at hu
    cases hu
  · have hop : t.updateOperator?.isSome = true := by
      rw [Token.updateOperator?, hsame.1, hsame.2]
      exact hu
    rw [← hline hop, ht hop]

/-- The operator behind an expression stands behind a copy as well, unless the copy ends there. -/
theorem FollowsExpression.assignOperator? (h : t.FollowsExpression u) :
    u.assignOperator? = none ∨ u.assignOperator? = t.assignOperator? := by
  rcases h with hstop | ⟨hsame, -⟩
  · exact .inl (operator_of_stops _ (fun _ _ => assignOperator?_is)
      (by intro op; cases op <;> decide) hstop)
  · exact .inr (by rw [Token.assignOperator?, Token.assignOperator?, hsame.1, hsame.2])

theorem FollowsExpression.binaryOperator? (h : t.FollowsExpression u) (noIn : Bool) :
    u.binaryOperator? noIn = none ∨ u.binaryOperator? noIn = t.binaryOperator? noIn := by
  rcases h with hstop | ⟨hsame, -⟩
  · exact .inl (operator_of_stops (·.binaryOperator? noIn)
      (fun _ _ hop => (binaryOperator?_eq_some.mp hop).1) (by intro op; cases op <;> decide) hstop)
  · exact .inr (by rw [Token.binaryOperator?, Token.binaryOperator?, hsame.1, hsame.2])

end Token

/-! ### Operators behind an operand -/

theorem Expression.isReference_relabel (r : Relabeling) (x : Expression) :
    (x.relabel r).isReference = x.isReference := by
  induction x using Expression.isReference.induct with
  | case1 | case2 | case3 => rfl
  | case4 pos inside ih => simpa only [relabel, isReference] using ih
  | case5 x =>
    cases x <;> simp_all [relabel, isReference]

theorem Copies.isReference {w : Wording} {x y : Expression}
    (h : Copies Expression.relabel w y x) : y.isReference = x.isReference := by
  rw [← Expression.isReference_relabel (.unplaced Identifier.name), h,
    Expression.isReference_relabel]

theorem postfixRest_stay {argument : Expression}
    (h : c.token.updateOperator?.isSome = true → c.token.newlineBefore = true) :
    Grammar.postfixRest argument c = .ok (argument, c) := by
  rw [Grammar.postfixRest, peek_bind]
  cases hop : c.token.updateOperator? with
  | none => rfl
  | some op => rw [h (by rw [hop]; rfl)]; rfl

theorem postfixRest_operator {op : UpdateOperator} {argument x : Expression}
    (hop : c.token.updateOperator? = some op) (hline : c.token.newlineBefore = false) :
    Grammar.postfixRest argument c = .ok (x, c') ↔ argument.isReference = true ∧
      c.next = .ok c' ∧ x = .postUpdate op c.token.pos argument := by
  rw [Grammar.postfixRest, peek_bind, hop, hline]
  constructor
  · intro h
    rcases ite_eq_ok.mp h with ⟨href, h⟩ | ⟨-, h⟩
    · obtain ⟨m, hnext, h⟩ := advance_bind_eq_ok.mp h
      obtain ⟨rfl, rfl⟩ := pure_eq_ok.mp h
      exact ⟨href, hnext, rfl⟩
    · cases fail_eq_ok.mp h
  · rintro ⟨href, hnext, rfl⟩
    exact ite_eq_ok.mpr (.inl ⟨href, advance_bind_eq_ok.mpr ⟨c', hnext, rfl⟩⟩)

theorem TailEcho.postfixRest {argument x : Expression}
    (h : Grammar.postfixRest argument c = .ok (x, c')) :
    ∃ tail, TailEcho Grammar.postfixRest c argument tail x c' := by
  by_cases hstay : c.token.updateOperator?.isSome = true → c.token.newlineBefore = true
  · rw [postfixRest_stay hstay] at h
    obtain ⟨rfl, rfl⟩ := Prod.mk.inj (Except.ok.inj h)
    exact ⟨[], .stay fun d hfollow base' => postfixRest_stay (hfollow.updateOperator? hstay)⟩
  · obtain ⟨hsome, hline⟩ := Classical.not_imp.mp hstay
    obtain ⟨op, hop⟩ := Option.isSome_iff_exists.mp hsome
    have hline : c.token.newlineBefore = false := by simpa using hline
    obtain ⟨href, hnext, rfl⟩ := (postfixRest_operator hop hline).mp h
    have his := Token.updateOperator?_is hop
    have hsymbol : isQuiet op.symbol = true ∧ isWord op.symbol = true ∧ op.symbol ≠ "," ∧
        beginsWord op.symbol = false := by
      cases op <;> decide
    obtain ⟨hquiet, hword, hcomma, hbegins⟩ := hsymbol
    refine ⟨[.mapped op.symbol c.token.pos], by rw [Expression.pieces],
      (Leads.mapped his hcomma hnext .nil).traces, fun _ => rfl,
      fun drop rest hcalm hsits => ⟨Piece.calm_sign hbegins, (Piece.sits_quiet hquiet).mpr hsits⟩,
      fun w d d' hspells hfollow => ?_⟩
    obtain ⟨his', hline', m', hm', rfl⟩ := (Wording.spells_sign hword).mp hspells
    have hline' : d.token.newlineBefore = false := by simpa using hline'
    have hop' := (Cursor.spelled (Token.is_kind his')).updateOperator?_eq_some.mpr his'
    refine ⟨.inr ⟨.ofIs his his', fun _ => hline.trans hline'.symm⟩, fun base' hcopy =>
      ⟨_, (postfixRest_operator hop' hline').mpr ⟨hcopy.isReference.trans href, hm', rfl⟩, ?_⟩⟩
    rw [Copies] at hcopy ⊢
    rw [Expression.relabel, Expression.relabel, hcopy]
    rfl

theorem Echo.postfixUpdate (hinner : inner.Echoes) {x : Expression}
    (h : Grammar.postfixUpdate inner c = .ok (x, c')) :
    Echo (Grammar.postfixUpdate inner) Expression.relabel c x.pieces x c' := by
  obtain ⟨argument, m, hargument, h⟩ := bind_eq_ok.mp h
  obtain ⟨tail, htail⟩ := TailEcho.postfixRest h
  exact (Echo.leftHandSide hinner hargument).tail htail

/-! ### Operators in front of an operand -/

/-- What an operator stands before may stand behind an operator. -/
theorem Opens.ahead {ps : List Piece} (h : Opens ps) (drop spaced : Bool) (rest : List Piece) :
    (Piece.ahead drop spaced (ps ++ rest)).any (·.2.passes beginsOperand) = true := by
  obtain ⟨p, qs, rfl, hp⟩ := h
  cases p <;> first | exact hp | cases hp

/-- What makes a spelling fit for an operator. -/
def isOperatorSymbol (text : String) : Bool :=
  text != "." && !endsInPoint text && !isDigits text && isWord text && text != ","

theorem sits_operator_before {s : String} (hs : isOperatorSymbol s = true) {ls ps : List Piece}
    (hls : ls.all Piece.isLayout = true) (hopens : Opens ps) (origin : Option Position)
    {drop : Bool} {rest : List Piece} (hsits : Piece.Sits drop (ps ++ rest)) :
    Piece.Sits drop (.token s origin .plain :: (ls ++ ps ++ rest)) := by
  simp only [isOperatorSymbol, Bool.and_eq_true, bne_iff_ne, Bool.not_eq_true'] at hs
  obtain ⟨⟨⟨⟨hpoint, hends⟩, hdigits⟩, -⟩, -⟩ := hs
  rw [List.append_assoc]
  refine (Piece.sits_operator hpoint hends hdigits ?_).mpr ((Piece.sits_layout hls).mpr hsits)
  obtain ⟨spaced, hahead⟩ := Piece.ahead_layout drop hls false (ps ++ rest)
  rw [hahead]
  exact hopens.ahead drop spaced rest

/-- An operator in front of an operand, with layout between them. -/
theorem Echo.operator {parser operand : Parser Expression} {s : String} {ls : List Piece}
    {argument x : Expression} (hs : isOperatorSymbol s = true) (hbegins : beginsOperand s = true)
    (hls : ls.all Piece.isLayout = true) (his : c.token.is s = true) (hnext : c.next = .ok m)
    (h : Echo operand Expression.relabel m argument.pieces argument c')
    (hpieces : x.pieces = .mapped s c.token.pos :: (ls ++ argument.pieces))
    (hparser : ∀ (w : Wording) (d n d' : Cursor) y, d.token.is s = true → d.next = .ok n →
      operand n = .ok (y, d') → Copies Expression.relabel w y argument →
      ∃ z, parser d = .ok (z, d') ∧ Copies Expression.relabel w z x) :
    Echo parser Expression.relabel c x.pieces x c' := by
  have hs' := hs
  simp only [isOperatorSymbol, Bool.and_eq_true, bne_iff_ne] at hs'
  obtain ⟨⟨-, hword⟩, hcomma⟩ := hs'
  rw [hpieces]
  refine ⟨.mapped his hcomma hnext (.layouts hls h.leads.traces), ⟨_, _, rfl, hbegins⟩,
    fun w broken => ?_, fun drop rest hcalm hsits => ?_, fun w broken d d' hspells hfollow => ?_⟩
  · exact (Wording.pending_append ..).trans (h.firm w _)
  · exact sits_operator_before hs hls h.opens _ (h.sits drop rest hcalm hsits)
  · obtain ⟨his', -, n, hn, hspells'⟩ := (Wording.spells_sign hword).mp hspells
    obtain ⟨n', hlayout, hargument⟩ := Wording.spells_append.mp hspells'
    obtain rfl := (Wording.spells_layout hls).mp hlayout
    obtain ⟨y, hy, hcopy⟩ := h.again w _ n d' hargument hfollow
    exact hparser w d n d' y his' hn hy hcopy

theorem unary_unaryOperator {op : UnaryOperator} {x : Expression}
    (hop : c.token.unaryOperator? = some op) :
    Grammar.unary inner c = .ok (x, c') ↔ ∃ m argument, c.next = .ok m ∧
      inner.unary m = .ok (argument, c') ∧ x = .unary op c.token.pos argument := by
  rw [Grammar.unary, peek_bind, hop]
  constructor
  · intro h
    obtain ⟨m, hnext, h⟩ := advance_bind_eq_ok.mp h
    obtain ⟨argument, n, hargument, h⟩ := bind_eq_ok.mp h
    obtain ⟨rfl, rfl⟩ := pure_eq_ok.mp h
    exact ⟨m, argument, hnext, hargument, rfl⟩
  · rintro ⟨m, argument, hnext, hargument, rfl⟩
    exact advance_bind_eq_ok.mpr ⟨m, hnext, bind_eq_ok.mpr ⟨argument, c', hargument, rfl⟩⟩

theorem unary_updateOperator {op : UpdateOperator} {x : Expression}
    (hnone : c.token.unaryOperator? = none) (hop : c.token.updateOperator? = some op) :
    Grammar.unary inner c = .ok (x, c') ↔ ∃ m argument, c.next = .ok m ∧
      inner.unary m = .ok (argument, c') ∧ argument.isReference = true ∧
        x = .preUpdate op c.token.pos argument := by
  rw [Grammar.unary, peek_bind, hnone, hop]
  constructor
  · intro h
    obtain ⟨m, hnext, h⟩ := advance_bind_eq_ok.mp h
    obtain ⟨argument, n, hargument, h⟩ := bind_eq_ok.mp h
    rcases ite_eq_ok.mp h with ⟨href, h⟩ | ⟨-, h⟩
    · obtain ⟨rfl, rfl⟩ := pure_eq_ok.mp h
      exact ⟨m, argument, hnext, hargument, href, rfl⟩
    · cases throw_eq_ok.mp h
  · rintro ⟨m, argument, hnext, hargument, href, rfl⟩
    exact advance_bind_eq_ok.mpr ⟨m, hnext, bind_eq_ok.mpr ⟨argument, c', hargument,
      ite_eq_ok.mpr (.inl ⟨href, rfl⟩)⟩⟩

/-- An update operator is no unary one. -/
theorem Token.unaryOperator?_of_update {t : Token} {op : UpdateOperator}
    (h : t.is op.symbol = true) : t.unaryOperator? = none := by
  refine Option.eq_none_iff_forall_ne_some.mpr fun op' hop => ?_
  have hne : op.symbol ≠ op'.symbol := by
    cases op <;> cases op' <;> decide
  have his := unaryOperator?_eq_some.mp hop
  rw [is_unique h hne] at his
  cases his

theorem Token.Peer.unaryOperator? {t u : Token} (h : t.Peer u) (hnone : t.unaryOperator? = none) :
    u.unaryOperator? = none := by
  refine Option.eq_none_iff_forall_ne_some.mpr fun op hop => ?_
  have his := unaryOperator?_eq_some.mp hop
  rw [← h.is_eq (by cases op <;> decide), ← unaryOperator?_eq_some, hnone] at his
  cases his

theorem Token.Peer.updateOperator? {t u : Token} (h : t.Peer u) (hnone : t.updateOperator? = none) :
    u.updateOperator? = none := by
  refine Option.eq_none_iff_forall_ne_some.mpr fun op hop => ?_
  have his := updateOperator?_is hop
  rw [← h.is_eq (by cases op <;> decide), ← h.left.updateOperator?_eq_some, hnone] at his
  cases his

theorem Echo.unary (hinner : inner.Echoes) {x : Expression}
    (h : Grammar.unary inner c = .ok (x, c')) :
    Echo (Grammar.unary inner) Expression.relabel c x.pieces x c' := by
  cases hop : c.token.unaryOperator? with
  | some op =>
    obtain ⟨m, argument, hnext, hargument, rfl⟩ := (unary_unaryOperator hop).mp h
    have hls : (if op.isWord then [Piece.space] else []).all Piece.isLayout = true := by
      cases op <;> rfl
    refine .operator (by cases op <;> decide) (by cases op <;> decide) hls
      (Token.unaryOperator?_eq_some.mp hop) hnext (hinner.unary _ _ _ hargument)
      (by rw [Expression.pieces]; rfl) fun w d n d' y his hn hy hcopy => ?_
    refine ⟨_, (unary_unaryOperator (Token.unaryOperator?_eq_some.mpr his)).mpr ⟨n, y, hn, hy, rfl⟩, ?_⟩
    exact congrArg (Expression.unary op .start) hcopy
  | none =>
    cases hop' : c.token.updateOperator? with
    | some op =>
      obtain ⟨m, argument, hnext, hargument, href, rfl⟩ := (unary_updateOperator hop hop').mp h
      have hls : ([] : List Piece).all Piece.isLayout = true := rfl
      refine .operator (by cases op <;> decide) (by cases op <;> decide) hls
        (Token.updateOperator?_is hop') hnext (hinner.unary _ _ _ hargument)
        (by rw [Expression.pieces]; rfl) fun w d n d' y his hn hy hcopy => ?_
      have hop'' := (Cursor.spelled (Token.is_kind his)).updateOperator?_eq_some.mpr his
      refine ⟨_, (unary_updateOperator (Token.unaryOperator?_of_update his) hop'').mpr
        ⟨n, y, hn, hy, hcopy.isReference.trans href, rfl⟩, ?_⟩
      exact congrArg (Expression.preUpdate op .start) hcopy
    | none =>
      rw [Grammar.unary, peek_bind, hop, hop'] at h
      refine (Echo.postfixUpdate hinner h).dispatch fun d hpeer => ?_
      rw [Grammar.unary, peek_bind, hpeer.unaryOperator? hop, hpeer.updateOperator? hop']

/-! ### Operators between operands -/

/-- An operator with its right operand, behind the left one. -/
theorem TailEcho.operator {parser : Expression → Parser Expression} {operand : Parser Expression}
    {s : String} {left right x : Expression} (hs : isOperatorSymbol s = true)
    (hwords : beginsWord s = true → s = "in" ∨ s = "instanceof")
    (hupdate : UpdateOperator.ofSymbol? s = none) (his : c.token.is s = true)
    (hnext : c.next = .ok m) (h : Echo operand Expression.relabel m right.pieces right c')
    (hpieces : x.pieces =
      left.pieces ++ ([.space, .mapped s c.token.pos, .space] ++ right.pieces))
    (hparser : ∀ (w : Wording) (d n d' : Cursor) left' y, d.token.is s = true → d.next = .ok n →
      operand n = .ok (y, d') → Copies Expression.relabel w left' left →
        Copies Expression.relabel w y right →
          ∃ z, parser left' d = .ok (z, d') ∧ Copies Expression.relabel w z x) :
    TailEcho parser c left ([.space, .mapped s c.token.pos, .space] ++ right.pieces) x c' := by
  have hs' := hs
  simp only [isOperatorSymbol, Bool.and_eq_true, bne_iff_ne] at hs'
  obtain ⟨⟨-, hword⟩, hcomma⟩ := hs'
  refine ⟨hpieces, ?_, fun w => ?_, fun drop rest hcalm hsits => ⟨Piece.calm_spaced hwords, ?_⟩,
    fun w d d' hspells hfollow => ?_⟩
  · exact .layout rfl (Leads.mapped his hcomma hnext (.layout rfl h.leads.traces)).traces
  · exact (Wording.pending_append ..).trans (h.firm w _)
  · have hls : [Piece.space].all Piece.isLayout = true := rfl
    exact Piece.sits_space.mpr (sits_operator_before hs hls h.opens (some c.token.pos)
      (h.sits drop rest hcalm hsits))
  · have hspells := Wording.spells_space.mp hspells
    obtain ⟨his', -, n, hn, hspells'⟩ := (Wording.spells_sign hword).mp hspells
    obtain ⟨y, hy, hcopy⟩ := h.again w _ n d' (Wording.spells_space.mp hspells') hfollow
    exact ⟨.ofIs his his' hupdate, fun left' hcopy' => hparser w d n d' left' y his' hn hy hcopy' hcopy⟩

theorem binaryRest_stay {noIn : Bool} {least links : Nat} {left : Expression}
    (h : ∀ op, c.token.binaryOperator? noIn = some op → op.precedence < least) :
    Grammar.binaryRest inner noIn least links left c = .ok (left, c) := by
  rw [Grammar.binaryRest, peek_bind]
  cases hop : c.token.binaryOperator? noIn with
  | none => rfl
  | some op => exact ite_eq_ok.mpr (.inl ⟨h op hop, rfl⟩)

/-- An operator, its right operand, and what follows the two. -/
theorem binaryRest_operator {noIn : Bool} {least links : Nat} {left x : Expression}
    {op : BinaryOperator} (hop : c.token.binaryOperator? noIn = some op)
    (hleast : ¬ op.precedence < least) :
    Grammar.binaryRest inner noIn least links left c = .ok (x, c') ↔
      ∃ links' n right m, links = links' + 1 ∧ c.next = .ok n ∧
        (Grammar.unary inner >>= Grammar.binaryRest inner noIn (op.precedence + 1) maxChain) n =
          .ok (right, m) ∧
        Grammar.binaryRest inner noIn least links' (.binary op c.token.pos left right) m =
          .ok (x, c') := by
  rw [Grammar.binaryRest, peek_bind, hop]
  simp only [if_neg hleast]
  cases links with
  | zero => simp [fail_eq_ok]
  | succ links =>
    constructor
    · intro h
      obtain ⟨n, hnext, h⟩ := advance_bind_eq_ok.mp h
      obtain ⟨operand, e, hoperand, h⟩ := bind_eq_ok.mp h
      obtain ⟨right, m, hright, h⟩ := bind_eq_ok.mp h
      exact ⟨links, n, right, m, rfl, hnext, bind_eq_ok.mpr ⟨operand, e, hoperand, hright⟩, h⟩
    · rintro ⟨links', n, right, m, heq, hnext, hright, h⟩
      obtain rfl := Nat.succ.inj heq
      obtain ⟨operand, e, hoperand, hright⟩ := bind_eq_ok.mp hright
      exact advance_bind_eq_ok.mpr ⟨n, hnext, bind_eq_ok.mpr ⟨operand, e, hoperand,
        bind_eq_ok.mpr ⟨right, m, hright, h⟩⟩⟩

theorem TailEcho.binaryRest (hinner : inner.Echoes) {noIn : Bool} {least links : Nat}
    {c c' : Cursor} {left x : Expression} (h : Grammar.binaryRest inner noIn least links left c = .ok (x, c')) :
    ∃ tail, TailEcho (Grammar.binaryRest inner noIn least links) c left tail x c' := by
  by_cases hstay : ∀ op, c.token.binaryOperator? noIn = some op → op.precedence < least
  · rw [binaryRest_stay hstay] at h
    obtain ⟨rfl, rfl⟩ := Prod.mk.inj (Except.ok.inj h)
    refine ⟨[], .stay fun d hfollow left' => binaryRest_stay fun op hop => ?_⟩
    rcases hfollow.binaryOperator? noIn with hnone | hsame
    · rw [hnone] at hop
      cases hop
    · exact hstay op (hsame ▸ hop)
  · obtain ⟨op, hop⟩ := Classical.not_forall.mp hstay
    obtain ⟨hop, hleast⟩ := Classical.not_imp.mp hop
    obtain ⟨links', n, right, m, rfl, hnext, hright, h⟩ := (binaryRest_operator hop hleast).mp h
    obtain ⟨operand, e, hoperand, hrest⟩ := bind_eq_ok.mp hright
    have hlevel : 11 - (op.precedence + 1) < 11 - least := by
      have := op.precedence_le
      omega
    obtain ⟨tail, htail⟩ := TailEcho.binaryRest hinner hrest
    obtain ⟨tail', htail'⟩ := TailEcho.binaryRest hinner h
    obtain ⟨his, hin⟩ := Token.binaryOperator?_eq_some.mp hop
    have hoperator : TailEcho (fun left => do
          let token ← advance
          let right ← Grammar.unary inner >>=
            Grammar.binaryRest inner noIn (op.precedence + 1) maxChain
          return .binary op token.pos left right) c left
        ([.space, .mapped op.symbol c.token.pos, .space] ++ right.pieces)
        (.binary op c.token.pos left right) m := by
      refine .operator (by cases op <;> decide) (by cases op <;> decide) (by cases op <;> decide) his
        hnext
        ((Echo.unary hinner hoperand).tail htail) (by rw [Expression.pieces, List.append_assoc])
        fun w d n d' left' y his' hn hy hcopy hcopy' => ⟨.binary op d.token.pos left' y,
          advance_bind_eq_ok.mpr ⟨n, hn, bind_eq_ok.mpr ⟨y, d', hy, rfl⟩⟩, ?_⟩
      rw [Copies] at hcopy hcopy' ⊢
      rw [Expression.relabel, Expression.relabel, hcopy, hcopy']
      rfl
    have hboth := hoperator.append htail'
    refine ⟨_, hboth.pieces, hboth.traces, hboth.firm, hboth.sits, fun w d d' hspells hfollow => ?_⟩
    obtain ⟨hfollow', hagain⟩ := hboth.again w d d' hspells hfollow
    refine ⟨hfollow', fun left' hcopy => ?_⟩
    obtain ⟨y, hy, hcopy'⟩ := hagain left' hcopy
    refine ⟨y, ?_, hcopy'⟩
    have his' := ((Wording.spells_sign (by cases op <;> decide)).mp
      (Wording.spells_space.mp hspells)).1
    have hop' : d.token.binaryOperator? noIn = some op := by
      refine Token.binaryOperator?_eq_some.mpr ⟨his', ?_⟩
      rw [(Token.is_iff.mp his').2, ← (Token.is_iff.mp his).2, hin]
    obtain ⟨z, e, hz, h'⟩ := bind_eq_ok.mp hy
    obtain ⟨n', hn', hz⟩ := advance_bind_eq_ok.mp hz
    obtain ⟨right', e', hright', hz⟩ := bind_eq_ok.mp hz
    obtain ⟨rfl, rfl⟩ := pure_eq_ok.mp hz
    exact (binaryRest_operator hop' hleast).mpr ⟨links', n', right', e', rfl, hn', hright', h'⟩
termination_by (11 - least, links)

theorem Echo.binary (hinner : inner.Echoes) {noIn : Bool} {x : Expression}
    (h : Grammar.binary inner noIn c = .ok (x, c')) :
    Echo (Grammar.binary inner noIn) Expression.relabel c x.pieces x c' := by
  obtain ⟨left, m, hleft, h⟩ := bind_eq_ok.mp h
  obtain ⟨tail, htail⟩ := TailEcho.binaryRest hinner h
  exact (Echo.unary hinner hleft).tail htail

/-! ### Conditions and assignments -/

theorem TailEcho.conditionalRest (hinner : inner.Echoes) {noIn : Bool} {test x : Expression}
    (h : Grammar.conditionalRest inner noIn test c = .ok (x, c')) :
    ∃ tail, TailEcho (Grammar.conditionalRest inner noIn) c test tail x c' := by
  obtain ⟨his, m, hnext, h⟩ | ⟨hnot, h⟩ := eat_bind_eq_ok.mp h
  · obtain ⟨consequent, n, hconsequent, h⟩ := bind_eq_ok.mp h
    obtain ⟨his', n', hnext', h⟩ := expect_bind_eq_ok.mp h
    obtain ⟨alternate, n'', halternate, h⟩ := bind_eq_ok.mp h
    obtain ⟨rfl, rfl⟩ := pure_eq_ok.mp h
    have hthen := hinner.assignment _ _ _ _ hconsequent
    have helse := hinner.assignment _ _ _ _ halternate
    refine ⟨.space :: .sign "?" :: .space :: (consequent.pieces ++
      .space :: .sign ":" :: .space :: alternate.pieces), ?_, ?_, fun w => ?_,
      fun drop rest hcalm hsits => ⟨Piece.calm_spaced (by decide), ?_⟩,
      fun w d d' hspells hfollow => ?_⟩
    · simp [Expression.pieces]
    · have hbehind : Traces n (.space :: .sign ":" :: .space :: alternate.pieces) n'' :=
        .layout rfl (Leads.sign his' (by decide) hnext' (.layout rfl helse.leads.traces)).traces
      exact .layout rfl (Leads.sign his (by decide) hnext
        (.layout rfl (hthen.leads.append hbehind).traces)).traces
    · exact (Wording.pending_append ..).trans (helse.firm w _)
    · refine Piece.sits_space.mpr ((Piece.sits_quiet (by decide)).mpr ?_)
      show Piece.Sits drop ((consequent.pieces ++
        .space :: .sign ":" :: .space :: alternate.pieces) ++ rest)
      rw [List.append_assoc]
      exact hthen.sits drop _ (Piece.calm_spaced (by decide))
        (Piece.sits_space.mpr ((Piece.sits_quiet (by decide)).mpr (helse.sits drop rest hcalm hsits)))
    · obtain ⟨hd, -, m', hm', hspells₁⟩ := (Wording.spells_sign (by decide)).mp
        (Wording.spells_space.mp hspells)
      obtain ⟨e, hspells₂, hspells₃⟩ := Wording.spells_append.mp (Wording.spells_space.mp hspells₁)
      obtain ⟨hd', -, e', he', hspells₄⟩ := (Wording.spells_sign (by decide)).mp
        (Wording.spells_space.mp hspells₃)
      obtain ⟨z, hz, hcopy'⟩ := helse.again w _ e' d' (Wording.spells_space.mp hspells₄) hfollow
      obtain ⟨y, hy, hcopy⟩ := hthen.again w _ m' e hspells₂ (.ofIs his' hd' (by decide))
      refine ⟨.ofIs his hd (by decide), fun test' hcopy'' => ⟨.conditional test' y z,
        eat_bind_eq_ok.mpr (.inl ⟨hd, m', hm', bind_eq_ok.mpr ⟨y, e, hy, expect_bind_eq_ok.mpr
          ⟨hd', e', he', bind_eq_ok.mpr ⟨z, d', hz, rfl⟩⟩⟩⟩), ?_⟩⟩
      rw [Copies] at hcopy hcopy' hcopy'' ⊢
      rw [Expression.relabel, Expression.relabel, hcopy, hcopy', hcopy'']
  · obtain ⟨rfl, rfl⟩ := pure_eq_ok.mp h
    exact ⟨[], .stay fun d hfollow test' => eat_bind_eq_ok.mpr (.inr
      ⟨hfollow.is_eq_false hnot (by decide), rfl⟩)⟩

theorem Echo.conditional (hinner : inner.Echoes) {noIn : Bool} {x : Expression}
    (h : Grammar.conditional inner noIn c = .ok (x, c')) :
    Echo (Grammar.conditional inner noIn) Expression.relabel c x.pieces x c' := by
  obtain ⟨test, m, htest, h⟩ := bind_eq_ok.mp h
  obtain ⟨tail, htail⟩ := TailEcho.conditionalRest hinner h
  exact (Echo.binary hinner htest).tail htail

theorem assignmentRest_operator {noIn : Bool} {op : AssignOperator} {left x : Expression}
    (hop : c.token.assignOperator? = some op) :
    Grammar.assignmentRest inner noIn left c = .ok (x, c') ↔ left.isReference = true ∧
      ∃ m right, c.next = .ok m ∧ inner.assignment noIn m = .ok (right, c') ∧
        x = .assign op c.token.pos left right := by
  rw [Grammar.assignmentRest, peek_bind, hop]
  constructor
  · intro h
    rcases ite_eq_ok.mp h with ⟨href, h⟩ | ⟨-, h⟩
    · obtain ⟨m, hnext, h⟩ := advance_bind_eq_ok.mp h
      obtain ⟨right, n, hright, h⟩ := bind_eq_ok.mp h
      obtain ⟨rfl, rfl⟩ := pure_eq_ok.mp h
      exact ⟨href, m, right, hnext, hright, rfl⟩
    · cases fail_eq_ok.mp h
  · rintro ⟨href, m, right, hnext, hright, rfl⟩
    exact ite_eq_ok.mpr (.inl ⟨href, advance_bind_eq_ok.mpr ⟨m, hnext, bind_eq_ok.mpr
      ⟨right, c', hright, rfl⟩⟩⟩)

theorem TailEcho.assignmentRest (hinner : inner.Echoes) {noIn : Bool} {left x : Expression}
    (h : Grammar.assignmentRest inner noIn left c = .ok (x, c')) :
    ∃ tail, TailEcho (Grammar.assignmentRest inner noIn) c left tail x c' := by
  cases hop : c.token.assignOperator? with
  | none =>
    rw [Grammar.assignmentRest, peek_bind, hop] at h
    obtain ⟨rfl, rfl⟩ := pure_eq_ok.mp h
    refine ⟨[], .stay fun d hfollow left' => ?_⟩
    have hnone : d.token.assignOperator? = none := by
      rcases hfollow.assignOperator? with hnone | hsame
      · exact hnone
      · rw [hsame, hop]
    rw [Grammar.assignmentRest, peek_bind, hnone]
    rfl
  | some op =>
    obtain ⟨href, m, right, hnext, hright, rfl⟩ := (assignmentRest_operator hop).mp h
    refine ⟨_, .operator (by cases op <;> decide) (by cases op <;> decide) (by cases op <;> decide)
      (Token.assignOperator?_is hop) hnext (hinner.assignment _ _ _ _ hright)
      (by rw [Expression.pieces, List.append_assoc])
      fun w d n d' left' y his hn hy hcopy hcopy' => ⟨.assign op d.token.pos left' y, ?_, ?_⟩⟩
    · have hop' := (Cursor.spelled (Token.is_kind his)).assignOperator?_eq_some.mpr his
      exact (assignmentRest_operator hop').mpr ⟨hcopy.isReference.trans href, n, y, hn, hy, rfl⟩
    · rw [Copies] at hcopy hcopy' ⊢
      rw [Expression.relabel, Expression.relabel, hcopy, hcopy']
      rfl

theorem Echo.assignment (hinner : inner.Echoes) {noIn : Bool} {x : Expression}
    (h : Grammar.assignment inner noIn c = .ok (x, c')) :
    Echo (Grammar.assignment inner noIn) Expression.relabel c x.pieces x c' := by
  obtain ⟨left, m, hleft, h⟩ := bind_eq_ok.mp h
  obtain ⟨tail, htail⟩ := TailEcho.assignmentRest hinner h
  exact (Echo.conditional hinner hleft).tail htail

end EcmaPress

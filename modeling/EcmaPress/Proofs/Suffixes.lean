import EcmaPress.Proofs.Operands

/-!
# Echoes of what stands behind operands

Many parsers read an operand and then go on behind it: with calls, member accesses, operators.
What they read there has an echo of its own, stated for every copy of the operand, and echoes of
such tails are put behind each other.
-/

namespace EcmaPress

open EcmaPress.Parser

variable {inner : Inner} {c m c' : Cursor}

/-- The run of a parser behind the operand `base`, which makes `x` of it, and the pieces that `x`
has besides those of the operand. -/
structure TailEcho (parser : Expression → Parser Expression) (c : Cursor) (base : Expression)
    (tail : List Piece) (x : Expression) (c' : Cursor) : Prop where
  pieces : x.pieces = base.pieces ++ tail
  traces : Traces c tail c'
  firm : ∀ w : Wording, w.pending false tail = false
  sits : ∀ drop rest, Piece.Calm drop rest → Piece.Sits drop rest →
    Piece.Calm drop (tail ++ rest) ∧ Piece.Sits drop (tail ++ rest)
  again : ∀ (w : Wording) d d', w.Spells false tail d d' → c'.token.FollowsExpression d'.token →
    c.token.FollowsExpression d.token ∧ ∀ base', Copies Expression.relabel w base' base →
      ∃ y, parser base' d = .ok (y, d') ∧ Copies Expression.relabel w y x

/-- The operand stands for itself. -/
theorem TailEcho.stay {parser : Expression → Parser Expression} {base : Expression}
    (h : ∀ d : Cursor, c.token.FollowsExpression d.token → ∀ base', parser base' d = .ok (base', d)) :
    TailEcho parser c base [] base c := by
  refine ⟨(List.append_nil _).symm, .nil, fun _ => rfl, fun _ _ hcalm hsits => ⟨hcalm, hsits⟩, ?_⟩
  rintro w d d' rfl hfollow
  exact ⟨hfollow, fun base' hcopy => ⟨base', h d hfollow base', hcopy⟩⟩

/-- A tail behind a tail. -/
theorem TailEcho.append {parser parser' : Expression → Parser Expression} {base x z : Expression}
    {tail tail' : List Piece} (h : TailEcho parser c base tail x m)
    (h' : TailEcho parser' m x tail' z c') :
    TailEcho (fun base => parser base >>= parser') c base (tail ++ tail') z c' := by
  refine ⟨?_, h.traces.append h'.traces, fun w => ?_, fun drop rest hcalm hsits => ?_,
    fun w d d' hspells hfollow => ?_⟩
  · rw [h'.pieces, h.pieces, List.append_assoc]
  · rw [Wording.pending_append, h.firm, h'.firm]
  · obtain ⟨hcalm', hsits'⟩ := h'.sits drop rest hcalm hsits
    rw [List.append_assoc]
    exact h.sits drop _ hcalm' hsits'
  · obtain ⟨n, hfirst, hrest⟩ := Wording.spells_append.mp hspells
    rw [h.firm] at hrest
    obtain ⟨hfollow', hagain'⟩ := h'.again w n d' hrest hfollow
    obtain ⟨hfollow'', hagain⟩ := h.again w d n hfirst hfollow'
    refine ⟨hfollow'', fun base' hcopy => ?_⟩
    obtain ⟨y, hy, hcopy'⟩ := hagain base' hcopy
    obtain ⟨z', hz, hcopy''⟩ := hagain' y hcopy'
    exact ⟨z', bind_eq_ok.mpr ⟨y, n, hy, hz⟩, hcopy''⟩

/-- A tail behind the operand itself. -/
theorem Echo.tail {parser : Parser Expression} {parser' : Expression → Parser Expression}
    {base x : Expression} {tail : List Piece}
    (h : Echo parser Expression.relabel c base.pieces base m)
    (h' : TailEcho parser' m base tail x c') :
    Echo (parser >>= parser') Expression.relabel c x.pieces x c' := by
  rw [h'.pieces]
  refine ⟨h.leads.append h'.traces, h.opens.append tail, fun w broken => ?_,
    fun drop rest hcalm hsits => ?_, fun w broken d d' hspells hfollow => ?_⟩
  · rw [Wording.pending_append, h.firm, h'.firm]
  · obtain ⟨hcalm', hsits'⟩ := h'.sits drop rest hcalm hsits
    rw [List.append_assoc]
    exact h.sits drop _ hcalm' hsits'
  · obtain ⟨n, hfirst, hrest⟩ := Wording.spells_append.mp hspells
    rw [h.firm] at hrest
    obtain ⟨hfollow', hagain⟩ := h'.again w n d' hrest hfollow
    obtain ⟨y, hy, hcopy⟩ := h.again w broken d n hfirst hfollow'
    obtain ⟨z, hz, hcopy'⟩ := hagain y hcopy
    exact ⟨z, bind_eq_ok.mpr ⟨y, n, hy, hz⟩, hcopy'⟩

/-! ### Calls and member accesses -/

/-- A tail that begins with a sign of its own and ends in a token of its own. -/
structure LinkEcho (link : Expression → Parser Expression) (c : Cursor) (base : Expression)
    (tail : List Piece) (x : Expression) (c' : Cursor) : Prop where
  pieces : x.pieces = base.pieces ++ tail
  traces : Traces c tail c'
  firm : ∀ w : Wording, w.pending false tail = false
  sits : ∀ drop rest, Piece.Calm drop rest → Piece.Sits drop rest →
    Piece.Calm drop (tail ++ rest) ∧ Piece.Sits drop (tail ++ rest)
  again : ∀ (w : Wording) d d', w.Spells false tail d d' → ∃ s, c.token.is s = true ∧
    d.token.is s = true ∧ UpdateOperator.ofSymbol? s = none ∧
      ∀ base', Copies Expression.relabel w base' base →
        ∃ y, link base' d = .ok (y, d') ∧ Copies Expression.relabel w y x

theorem LinkEcho.tail {link : Expression → Parser Expression} {base x : Expression}
    {tail : List Piece} (h : LinkEcho link c base tail x c') :
    TailEcho link c base tail x c' := by
  refine ⟨h.pieces, h.traces, h.firm, h.sits, fun w d d' hspells _ => ?_⟩
  obtain ⟨s, his, his', hs, hagain⟩ := h.again w d d' hspells
  exact ⟨.ofIs his his' hs, hagain⟩

theorem TailEcho.chain {more : Token → Bool} {link : Expression → Parser Expression}
    (hsame : ∀ t u : Token, t.Same u → more t = more u)
    (hstop : ∀ t u : Token, t.FollowsExpression u → more t = false → more u = false)
    (hlink : ∀ c base x c', more c.token = true → link base c = .ok (x, c') →
      ∃ tail, LinkEcho link c base tail x c')
    {links : Nat} {base x : Expression} (h : Grammar.chain more link base links c = .ok (x, c')) :
    ∃ tail, TailEcho (Grammar.chain more link · links) c base tail x c' := by
  induction links generalizing base c with
  | zero =>
    rcases ite_eq_ok.mp h with ⟨-, h⟩ | ⟨hnot, h⟩
    · cases fail_eq_ok.mp h
    · obtain ⟨rfl, rfl⟩ := pure_eq_ok.mp h
      refine ⟨[], .stay fun d hfollow base' => ?_⟩
      have hnot' := hstop _ _ hfollow (by simpa using hnot)
      exact ite_eq_ok.mpr (.inr ⟨by simp [hnot'], rfl⟩)
  | succ links ih =>
    rcases ite_eq_ok.mp h with ⟨hmore, h⟩ | ⟨hnot, h⟩
    · obtain ⟨y, n, hy, h⟩ := bind_eq_ok.mp h
      obtain ⟨tail, hfirst⟩ := hlink _ _ _ _ hmore hy
      obtain ⟨tail', hrest⟩ := ih h
      have hboth := hfirst.tail.append hrest
      refine ⟨tail ++ tail', hboth.pieces, hboth.traces, hboth.firm, hboth.sits,
        fun w d d' hspells hfollow => ?_⟩
      obtain ⟨hfollow', hagain⟩ := hboth.again w d d' hspells hfollow
      obtain ⟨n', hspells', -⟩ := Wording.spells_append.mp hspells
      obtain ⟨s, his, his', -⟩ := hfirst.again w d n' hspells'
      have hmore' : more d.token = true := (hsame _ _ (.ofIs his his')).symm.trans hmore
      refine ⟨hfollow', fun base' hcopy => ?_⟩
      obtain ⟨z, hz, hcopy'⟩ := hagain base' hcopy
      exact ⟨z, ite_eq_ok.mpr (.inl ⟨hmore', hz⟩), hcopy'⟩
    · obtain ⟨rfl, rfl⟩ := pure_eq_ok.mp h
      refine ⟨[], .stay fun d hfollow base' => ?_⟩
      have hnot' := hstop _ _ hfollow (by simpa using hnot)
      exact ite_eq_ok.mpr (.inr ⟨by simp [hnot'], rfl⟩)

theorem member_point {base x : Expression} (his : c.token.is "." = true) :
    Grammar.member inner base c = .ok (x, c') ↔ ∃ m, c.next = .ok m ∧ m.token.kind = .name ∧
      x = .member base ⟨m.token.text, m.token.pos⟩ ∧ m.next = .ok c' := by
  constructor
  · intro h
    obtain ⟨-, m, hnext, h⟩ | ⟨hnot, -⟩ := eat_bind_eq_ok.mp h
    · rw [if_pos rfl, peek_bind] at h
      rcases ite_eq_ok.mp h with ⟨hkind, h⟩ | ⟨-, h⟩
      · obtain ⟨n, hnext', h⟩ := advance_bind_eq_ok.mp h
        obtain ⟨rfl, rfl⟩ := pure_eq_ok.mp h
        exact ⟨m, hnext, beq_iff_eq.mp hkind, rfl, hnext'⟩
      · cases unexpected_eq_ok.mp h
    · rw [his] at hnot
      cases hnot
  · rintro ⟨m, hnext, hkind, rfl, hnext'⟩
    refine eat_bind_eq_ok.mpr (.inl ⟨his, m, hnext, ?_⟩)
    rw [if_pos rfl, peek_bind]
    exact ite_eq_ok.mpr (.inl ⟨beq_iff_eq.mpr hkind, advance_bind_eq_ok.mpr ⟨c', hnext', rfl⟩⟩)

theorem member_bracket {base x : Expression} (hnot : c.token.is "." = false) :
    Grammar.member inner base c = .ok (x, c') ↔ c.token.is "[" = true ∧ ∃ m property n,
      c.next = .ok m ∧ Grammar.expression inner false m = .ok (property, n) ∧
        n.token.is "]" = true ∧ n.next = .ok c' ∧ x = .index base property := by
  constructor
  · intro h
    obtain ⟨his, -⟩ | ⟨-, h⟩ := eat_bind_eq_ok.mp h
    · rw [hnot] at his
      cases his
    · obtain ⟨his, m, hnext, h⟩ := expect_bind_eq_ok.mp h
      obtain ⟨property, n, hproperty, h⟩ := bind_eq_ok.mp h
      obtain ⟨his', n', hnext', h⟩ := expect_bind_eq_ok.mp h
      obtain ⟨rfl, rfl⟩ := pure_eq_ok.mp h
      exact ⟨his, m, property, n, hnext, hproperty, his', hnext', rfl⟩
  · rintro ⟨his, m, property, n, hnext, hproperty, his', hnext', rfl⟩
    exact eat_bind_eq_ok.mpr (.inr ⟨hnot, expect_bind_eq_ok.mpr ⟨his, m, hnext, bind_eq_ok.mpr
      ⟨property, n, hproperty, expect_bind_eq_ok.mpr ⟨his', c', hnext', rfl⟩⟩⟩⟩)

/-- A point and a word. -/
theorem sits_point {t : Token} (ht : t.Spelled) (hkind : t.kind = .name) {drop : Bool}
    {rest : List Piece} (hcalm : Piece.Calm drop rest) (hsits : Piece.Sits drop rest) :
    Piece.Sits drop (.sign "." :: .mapped t.text t.pos :: rest) := by
  have hend : t.isEnd = false := by simp [Token.isEnd, hkind]
  refine ⟨⟨fun hop => absurd hop (by decide), fun _ => ?_, fun hpoint => absurd hpoint (by decide),
    fun hdigits => absurd hdigits (by decide)⟩, ?_⟩
  · obtain ⟨a, rest', htext⟩ := ht.cons hend
    simp only [Piece.ahead, Piece.mapped, Option.any_some, Piece.passes, htext, List.head?_cons,
      Bool.not_eq_true']
    rw [Bool.eq_false_iff]
    intro hdigit
    rw [Token.Spelled, htext, hkind] at ht
    cases Lexeme.scan_digit ht hdigit
  · refine Piece.sits_spelled ht (by simp [hkind]) hend (fun hdigits => ?_) hcalm hsits
    rw [ht.isDigits (by simp [hkind])] at hdigits
    cases hdigits

theorem LinkEcho.point {base x : Expression} (his : c.token.is "." = true)
    (h : Grammar.member inner base c = .ok (x, c')) :
    ∃ tail, LinkEcho (Grammar.member inner) c base tail x c' := by
  obtain ⟨m, hnext, hkind, rfl, hnext'⟩ := (member_point his).mp h
  have hregex : m.token.kind ≠ .regex := by simp [hkind]
  have hend : m.token.isEnd = false := by simp [Token.isEnd, hkind]
  have hspelled := Cursor.spelled hregex
  have hcomma : m.token.text ≠ "," := by
    intro hcomma
    have hkind' := hspelled.kindOf
    rw [hcomma, hkind] at hkind'
    exact absurd hkind' (by decide)
  refine ⟨[.sign ".", .mapped m.token.text m.token.pos], rfl, ?_, fun _ => rfl,
    fun drop rest hcalm hsits => ⟨Piece.calm_sign (by decide), sits_point hspelled hkind hcalm hsits⟩,
    fun w d d' hspells => ⟨".", his, ?_⟩⟩
  · exact (Leads.sign his (by decide) hnext
      (Leads.token hregex hend hnext' (by decide) (by simp) hcomma .nil).traces).traces
  · obtain ⟨his', -, m', hm', hspells'⟩ := (Wording.spells_sign (by decide)).mp hspells
    obtain ⟨htext, hregex', -, -, n', hn', rfl⟩ := (Wording.spells_token (by decide)).mp hspells'
    have hkind' : m'.token.kind = .name :=
      ((Cursor.spelled hregex').kind_congr hspelled htext).trans hkind
    refine ⟨his', by decide, fun base' hcopy =>
      ⟨_, (member_point his').mpr ⟨m', hm', hkind', rfl, hn'⟩, ?_⟩⟩
    simp only [Copies, Expression.relabel, Relabeling.label, htext] at hcopy ⊢
    rw [hcopy]
    rfl

theorem LinkEcho.bracket (hinner : inner.Echoes) {base x : Expression}
    (hnot : c.token.is "." = false) (h : Grammar.member inner base c = .ok (x, c')) :
    ∃ tail, LinkEcho (Grammar.member inner) c base tail x c' := by
  obtain ⟨his, m, property, n, hnext, hproperty, his', hnext', rfl⟩ := (member_bracket hnot).mp h
  have henclosed := (Echo.expression hinner hproperty).enclosed (by decide) (by decide) his hnext
    his' hnext' none (by simp)
  refine ⟨.sign "[" :: property.pieces ++ [.sign "]"], ?_, henclosed.leads.traces,
    fun w => henclosed.firm w false,
    fun drop rest _ hsits => ⟨Piece.calm_sign (by decide), henclosed.sits drop rest hsits⟩,
    fun w d d' hspells => ⟨"[", his, ?_⟩⟩
  · rw [Expression.pieces, List.append_assoc]
  · obtain ⟨hd, m', hm', -, y, n', hy, hn', hd', hcopy⟩ := henclosed.again w false d d' hspells
    refine ⟨hd, by decide, fun base' hcopy' => ⟨_, (member_bracket (Token.is_unique hd (by decide))).mpr
      ⟨hd, m', y, n', hm', hy, hn', hd', rfl⟩, ?_⟩⟩
    rw [Copies] at hcopy hcopy' ⊢
    rw [Expression.relabel, Expression.relabel, hcopy, hcopy']

theorem LinkEcho.member (hinner : inner.Echoes) {base x : Expression}
    (h : Grammar.member inner base c = .ok (x, c')) :
    ∃ tail, LinkEcho (Grammar.member inner) c base tail x c' := by
  cases his : c.token.is "." with
  | true => exact LinkEcho.point his h
  | false => exact LinkEcho.bracket hinner his h

theorem LinkEcho.suffix (hinner : inner.Echoes) {base x : Expression}
    (h : Grammar.suffix inner base c = .ok (x, c')) :
    ∃ tail, LinkEcho (Grammar.suffix inner) c base tail x c' := by
  rcases ite_eq_ok.mp h with ⟨his, h⟩ | ⟨hnot, h⟩
  · obtain ⟨xs, m, hxs, h⟩ := bind_eq_ok.mp h
    obtain ⟨rfl, rfl⟩ := pure_eq_ok.mp h
    have hecho := ClosedEcho.inParens (hinner.assignment false) hxs
    rw [← expressionsPieces_eq] at hecho
    refine ⟨Piece.inParens (expressionsPieces xs), by rw [Expression.pieces], hecho.leads.traces,
      fun w => hecho.firm w false,
      fun drop rest _ hsits => ⟨Piece.calm_sign (by decide), hecho.sits drop rest hsits⟩,
      fun w d d' hspells => ⟨"(", his, ?_⟩⟩
    have his' := ((Wording.spells_sign (by decide)).mp hspells).1
    obtain ⟨ys, hys, hcopy⟩ := hecho.again w false d d' hspells
    refine ⟨his', by decide, fun base' hcopy' => ⟨.call base' ys, ite_eq_ok.mpr (.inl ⟨his',
      bind_eq_ok.mpr ⟨ys, d', hys, rfl⟩⟩), ?_⟩⟩
    simp only [Copies, Expression.relabel, relabelExpressions_eq] at hcopy hcopy' ⊢
    rw [hcopy, hcopy']
  · obtain ⟨tail, hlink⟩ := LinkEcho.member hinner h
    refine ⟨tail, hlink.pieces, hlink.traces, hlink.firm, hlink.sits, fun w d d' hspells => ?_⟩
    obtain ⟨s, hs, hs', hupdate, hagain⟩ := hlink.again w d d' hspells
    refine ⟨s, hs, hs', hupdate, fun base' hcopy => ?_⟩
    obtain ⟨y, hy, hcopy'⟩ := hagain base' hcopy
    have hnot' : d.token.is "(" = false :=
      ((Token.Same.ofIs hs hs').is_eq "(").symm.trans (by simpa using hnot)
    exact ⟨y, ite_eq_ok.mpr (.inr ⟨by simp [hnot'], hy⟩), hcopy'⟩

theorem TailEcho.members (hinner : inner.Echoes) {links : Nat} {base x : Expression}
    (h : Grammar.chain Token.isMemberSuffix (Grammar.member inner) base links c = .ok (x, c')) :
    ∃ tail, TailEcho (Grammar.chain Token.isMemberSuffix (Grammar.member inner) · links) c base tail
      x c' := by
  refine TailEcho.chain (fun t u hsame => ?_) (fun t u hfollow hnot => ?_)
    (fun _ _ _ _ _ => LinkEcho.member hinner) h
  · simp only [Token.isMemberSuffix, hsame.is_eq]
  · simp only [Token.isMemberSuffix, Bool.or_eq_false_iff] at hnot ⊢
    exact ⟨hfollow.is_eq_false hnot.1 (by decide), hfollow.is_eq_false hnot.2 (by decide)⟩

theorem TailEcho.suffixes (hinner : inner.Echoes) {links : Nat} {base x : Expression}
    (h : Grammar.chain Token.isSuffix (Grammar.suffix inner) base links c = .ok (x, c')) :
    ∃ tail, TailEcho (Grammar.chain Token.isSuffix (Grammar.suffix inner) · links) c base tail
      x c' := by
  refine TailEcho.chain (fun t u hsame => ?_) (fun t u hfollow hnot => ?_)
    (fun _ _ _ _ _ => LinkEcho.suffix hinner) h
  · simp only [Token.isSuffix, Token.isMemberSuffix, hsame.is_eq]
  · simp only [Token.isSuffix, Token.isMemberSuffix, Bool.or_eq_false_iff] at hnot ⊢
    exact ⟨hfollow.is_eq_false hnot.1 (by decide), hfollow.is_eq_false hnot.2.1 (by decide),
      hfollow.is_eq_false hnot.2.2 (by decide)⟩

/-! ### Objects made by `new` -/

/-- One of two parsers, as the word at the front decides. -/
theorem Echo.ite {parser parser' : Parser Expression} {s : String} {x : Expression}
    (hs : isFirm s = true)
    (hthen : c.token.is s = true → parser c = .ok (x, c') →
      Echo parser Expression.relabel c x.pieces x c')
    (helse : parser' c = .ok (x, c') → Echo parser' Expression.relabel c x.pieces x c')
    (h : (if c.token.is s then parser else parser') c = .ok (x, c')) :
    Echo (peek >>= fun t => if t.is s then parser else parser') Expression.relabel c x.pieces x
      c' := by
  rcases ite_eq_ok.mp h with ⟨his, h⟩ | ⟨hnot, h⟩
  · refine (hthen his h).dispatch fun d hpeer => ?_
    rw [peek_bind, ← hpeer.is_eq hs, if_pos his]
  · refine (helse h).dispatch fun d hpeer => ?_
    rw [peek_bind, ← hpeer.is_eq hs, if_neg hnot]

theorem Echo.newOperand (hinner : inner.Echoes) {x : Expression}
    (h : Grammar.newOperand inner c = .ok (x, c')) :
    Echo (Grammar.newOperand inner) Expression.relabel c x.pieces x c' :=
  .ite (by decide) (hinner.newExpression _ _ _) (Echo.primary hinner) h

/-- The object that `new` makes of what stands behind it. -/
theorem Echo.newExpression (hinner : inner.Echoes) {x : Expression}
    (his : c.token.is "new" = true) (h : Grammar.newExpression inner c = .ok (x, c')) :
    Echo (Grammar.newExpression inner) Expression.relabel c x.pieces x c' := by
  obtain ⟨m, hnext, h⟩ := advance_bind_eq_ok.mp h
  obtain ⟨base, n, hbase, h⟩ := bind_eq_ok.mp h
  obtain ⟨callee, n', hcallee, h⟩ := bind_eq_ok.mp h
  obtain ⟨tail, htail⟩ := TailEcho.members hinner hcallee
  have hecho := (Echo.newOperand hinner hbase).tail htail
  have hopens : ∀ ps, Opens (.mapped "new" c.token.pos :: ps) := fun ps =>
    ⟨_, ps, rfl, (by decide : beginsOperand "new" = true)⟩
  rcases ite_eq_ok.mp h with ⟨hparen, h⟩ | ⟨hnot, h⟩
  · obtain ⟨xs, n'', hxs, h⟩ := bind_eq_ok.mp h
    obtain ⟨rfl, rfl⟩ := pure_eq_ok.mp h
    have hargs := ClosedEcho.inParens (hinner.assignment false) hxs
    rw [← expressionsPieces_eq] at hargs
    rw [Expression.pieces, List.cons_append, List.cons_append]
    refine ⟨.mapped his (by decide) hnext (.layout rfl (hecho.leads.append hargs.leads.traces).traces),
      hopens _, fun w broken => ?_, fun drop rest _ hsits => ?_, fun w broken d d' hspells _ => ?_⟩
    · exact (Wording.pending_append ..).trans (hargs.firm w _)
    · refine (Piece.sits_quiet (by decide)).mpr ?_
      show Piece.Sits drop ((callee.pieces ++ Piece.inParens (expressionsPieces xs)) ++ rest)
      rw [List.append_assoc]
      exact hecho.sits drop _ (Piece.calm_sign (by decide)) (hargs.sits drop rest hsits)
    · obtain ⟨-, -, m', hm', hspells₁⟩ := (Wording.spells_sign (by decide)).mp hspells
      obtain ⟨e, hspells₂, hspells₃⟩ := Wording.spells_append.mp (Wording.spells_space.mp hspells₁)
      have hparen' := ((Wording.spells_sign (by decide)).mp hspells₃).1
      obtain ⟨ys, hys, hcopy'⟩ := hargs.again w _ e d' hspells₃
      obtain ⟨y, hy, hcopy⟩ := hecho.again w _ m' e hspells₂ (.ofIs hparen hparen' (by decide))
      obtain ⟨base', e', hbase', hchain⟩ := bind_eq_ok.mp hy
      refine ⟨.newCall d.token.pos y ys, advance_bind_eq_ok.mpr ⟨m', hm', bind_eq_ok.mpr
        ⟨base', e', hbase', bind_eq_ok.mpr ⟨y, e, hchain, ite_eq_ok.mpr (.inl ⟨hparen',
          bind_eq_ok.mpr ⟨ys, d', hys, rfl⟩⟩)⟩⟩⟩, ?_⟩
      simp only [Copies, Expression.relabel, relabelExpressions_eq] at hcopy hcopy' ⊢
      rw [hcopy, hcopy']
      rfl
  · obtain ⟨rfl, rfl⟩ := pure_eq_ok.mp h
    rw [Expression.pieces]
    refine ⟨.mapped his (by decide) hnext (.layout rfl hecho.leads.traces), hopens _,
      fun w broken => hecho.firm w _, fun drop rest hcalm hsits => ?_,
      fun w broken d d' hspells hfollow => ?_⟩
    · exact (Piece.sits_quiet (by decide)).mpr (hecho.sits drop rest hcalm hsits)
    · obtain ⟨-, -, m', hm', hspells₁⟩ := (Wording.spells_sign (by decide)).mp hspells
      obtain ⟨y, hy, hcopy⟩ := hecho.again w _ m' d' (Wording.spells_space.mp hspells₁) hfollow
      obtain ⟨base', e', hbase', hchain⟩ := bind_eq_ok.mp hy
      have hnot' := hfollow.is_eq_false (by simpa using hnot) (by decide)
      refine ⟨.newBare d.token.pos y, advance_bind_eq_ok.mpr ⟨m', hm', bind_eq_ok.mpr
        ⟨base', e', hbase', bind_eq_ok.mpr ⟨y, d', hchain, ite_eq_ok.mpr (.inr
          ⟨by simp [hnot'], rfl⟩)⟩⟩⟩, ?_⟩
      simp only [Copies, Expression.relabel] at hcopy ⊢
      rw [hcopy]
      rfl

theorem Echo.leftHandSide (hinner : inner.Echoes) {x : Expression}
    (h : Grammar.leftHandSide inner c = .ok (x, c')) :
    Echo (Grammar.leftHandSide inner) Expression.relabel c x.pieces x c' := by
  obtain ⟨base, m, hbase, h⟩ := bind_eq_ok.mp h
  obtain ⟨tail, htail⟩ := TailEcho.suffixes hinner h
  have hecho : Echo (Grammar.callOperand inner) Expression.relabel c base.pieces base m :=
    .ite (by decide) (fun his => Echo.newExpression hinner his) (Echo.primary hinner) hbase
  exact hecho.tail htail

end EcmaPress

import EcmaPress.Proofs.Objects

/-!
# Echoes of operands

Literals, names, functions and what stands in brackets, and the calls and member accesses behind
them. Which of these a parser reads is decided by the first token; a copy begins with a peer of
that token, so the decision is the same there.
-/

namespace EcmaPress

open EcmaPress.Parser

variable {inner : Inner} {c c' : Cursor}

/-- A parser that begins like another one where the first token is a peer of `c`. -/
theorem Echo.dispatch {α : Type} {parser parser' : Parser α} {relabel : Relabeling → α → α}
    {ps : List Piece} {x : α} (h : Echo parser relabel c ps x c')
    (hparser : ∀ d : Cursor, c.token.Peer d.token → parser' d = parser d) :
    Echo parser' relabel c ps x c' := by
  refine ⟨h.leads, h.opens, h.firm, h.sits, fun w broken d d' hspells hfollow => ?_⟩
  rw [hparser d (h.leads.peer hspells)]
  exact h.again w broken d d' hspells hfollow

/-- The same for a first token that is a sign or a reserved word. -/
theorem Echo.dispatchFirm {α : Type} {parser parser' : Parser α} {relabel : Relabeling → α → α}
    {ps : List Piece} {x : α} (h : Echo parser relabel c ps x c') {k : TokenKind} {s : String}
    (hk : c.token.kind = k) (ht : c.token.text = s) (hkind : k = .name ∨ k = .punct)
    (hfirm : isFirm s = true)
    (hparser : ∀ d : Cursor, d.token.kind = k → d.token.text = s → parser' d = parser d) :
    Echo parser' relabel c ps x c' := by
  subst hk ht
  exact h.dispatch fun d hpeer => hparser d hpeer.kind.symm (hpeer.text_eq hfirm hkind).symm

/-! ### Literals -/

theorem Echo.literal {kind : LiteralKind} {x : Expression} (hregex : kind ≠ .regex)
    (hkind : c.token.kind ≠ .punct ∧ c.token.kind ≠ .regex ∧ c.token.isEnd = false)
    (hnumber : c.token.kind = .number → kind = .number)
    (h : Grammar.literal kind c = .ok (x, c')) :
    Echo (Grammar.literal kind) Expression.relabel c x.pieces x c' := by
  obtain ⟨m, hnext, h⟩ := advance_bind_eq_ok.mp h
  obtain ⟨rfl, rfl⟩ := pure_eq_ok.mp h
  obtain ⟨hpunct, hplain, hend⟩ := hkind
  have hspelled := Cursor.spelled hplain
  have hshape : kind.shape c.token.text ≠ .regex := by
    cases kind with
    | regex => exact absurd rfl hregex
    | number => simp only [LiteralKind.shape]; split <;> simp
    | _ => simp [LiteralKind.shape]
  rw [Expression.pieces]
  refine ⟨.token hplain hend hnext hshape (by simp) (fun hcomma => ?_) .nil,
    ⟨_, [], rfl, hspelled.beginsOperand hpunct hend⟩, fun _ _ => rfl,
    fun drop rest hcalm hsits => ?_, fun w broken d d' hspells _ => ?_⟩
  · have hkind := hspelled.kindOf
    rw [hcomma] at hkind
    exact hpunct (Option.some.inj (hkind.symm.trans (by decide)))
  · refine Piece.sits_spelled hspelled hpunct hend (fun hdigits hplain => ?_) hcalm hsits
    by_cases hn : c.token.kind = .number
    · obtain rfl := hnumber hn
      simp only [isDigits, Bool.and_eq_true] at hdigits
      simp [LiteralKind.shape, hdigits.2] at hplain
    · rw [hspelled.isDigits hn] at hdigits
      cases hdigits
  · obtain ⟨htext, -, -, -, m, hm, rfl⟩ := (Wording.spells_token hshape).mp hspells
    refine ⟨_, advance_bind_eq_ok.mpr ⟨m, hm, rfl⟩, ?_⟩
    simp only [Copies, Expression.relabel, htext]
    rfl

/-- A reserved word that is a literal decides for itself. -/
theorem Echo.literalWord {parser : Parser Expression} {kind : LiteralKind} {x : Expression}
    {s : String} (hregex : kind ≠ .regex) (hk : c.token.kind = .name) (ht : c.token.text = s)
    (hfirm : isFirm s = true)
    (hparser : ∀ d : Cursor, d.token.kind = .name → d.token.text = s →
      parser d = Grammar.literal kind d) (h : Grammar.literal kind c = .ok (x, c')) :
    Echo parser Expression.relabel c x.pieces x c' := by
  have hecho := Echo.literal hregex (by simp [Token.isEnd, hk]) (by simp [hk]) h
  exact hecho.dispatchFirm hk ht (.inl rfl) hfirm hparser

/-- A regular expression begins with a slash and does not end with it. -/
theorem asRegex_text {r : Cursor} (hslash : c.token.isSlash = true) (h : c.asRegex = .ok r) :
    ∃ d rest, r.token.text.toList = '/' :: d :: rest := by
  obtain ⟨n, hregex, htoken, hinput, -⟩ := Cursor.asRegex_eq_ok.mp h
  have hge := Lexeme.regex_ge hregex
  have hle := Lexeme.regex_le hregex
  obtain ⟨rest, hrest⟩ := c.stands.spelled
  have hchars : ∃ rest, c.input.chars = '/' :: rest := by
    rcases (Token.isSlash_text hslash).2 with htext | htext <;> rw [htext] at hrest
    · exact ⟨rest, hrest.symm⟩
    · exact ⟨'=' :: rest, hrest.symm⟩
  obtain ⟨rest, hchars⟩ := hchars
  rw [htoken, Input.tokenOf, String.toList_ofList, hchars]
  rw [hchars] at hle
  obtain ⟨k, rfl⟩ : ∃ k, n = k + 2 := ⟨n - 2, by omega⟩
  cases rest with
  | nil => simp at hle
  | cons d rest => exact ⟨d, rest.take k, rfl⟩

theorem isOperator_regex {text : String} {d : Char} {rest : List Char}
    (h : text.toList = '/' :: d :: rest) : isOperator text = false := by
  have hall : ∀ sign ∈ punctuators, sign.toList.head? = some '/' → sign.length ≤ 2 := by
    decide
  rw [Bool.eq_false_iff]
  intro hop
  simp only [isOperator, List.any_eq_true, Bool.and_eq_true, List.isPrefixOf_iff_prefix,
    decide_eq_true_eq] at hop
  obtain ⟨sign, hmem, hpre, hlen⟩ := hop
  rw [h] at hpre
  obtain ⟨more, hmore⟩ := hpre
  have hshort := hall sign hmem (by rw [← hmore]; rfl)
  rw [← String.length_toList, h] at hlen
  simp only [List.length_cons] at hlen
  omega

theorem Echo.regex {x : Expression} (hslash : c.token.isSlash = true)
    (h : Grammar.regex c = .ok (x, c')) : Echo Grammar.regex Expression.relabel c x.pieces x c' := by
  obtain ⟨_, r, hr, h⟩ := bind_eq_ok.mp h
  have hr : c.asRegex = .ok r := rescanRegex_eq_ok.mp hr
  obtain ⟨m, hnext, h⟩ := advance_bind_eq_ok.mp h
  obtain ⟨rfl, rfl⟩ := pure_eq_ok.mp h
  have hkind : r.token.kind = .regex := by
    obtain ⟨n, -, htoken, -⟩ := Cursor.asRegex_eq_ok.mp hr
    rw [htoken]
    rfl
  obtain ⟨d, rest, htext⟩ := asRegex_text hslash hr
  rw [Expression.pieces]
  refine ⟨⟨r.token, m, _, [], rfl, rfl, .regex hslash hr hnext, ⟨rfl, ?_⟩, rfl, fun hcomma => ?_,
    .nil⟩, ⟨_, [], rfl, ?_⟩, fun _ _ => rfl, fun drop rest' hcalm hsits => ⟨⟨fun hop => ?_,
    fun hdot => ?_, fun _ => hcalm, fun hdigits => ?_⟩, hsits⟩,
    fun w broken d d' hspells _ => ?_⟩
  · simp [LiteralKind.shape, Piece.Admits, hkind]
  · rw [hcomma] at htext
    cases htext
  · simp [Piece.passes, beginsOperand, htext]
  · rw [isOperator_regex htext] at hop
    cases hop
  · rw [hdot] at htext
    cases htext
  · simp [isDigits, htext] at hdigits
  · obtain ⟨r', m', hslash', hr', htext', -, hnext', rfl⟩ := Wording.spells_regex.mp hspells
    refine ⟨_, bind_eq_ok.mpr ⟨(), r', rescanRegex_eq_ok.mpr hr',
      advance_bind_eq_ok.mpr ⟨m', hnext', rfl⟩⟩, ?_⟩
    simp only [Copies, Expression.relabel, htext']
    rfl

/-! ### Names, functions and brackets -/

theorem Echo.thisValue {x : Expression} (his : c.token.is "this" = true)
    (h : (do return .thisValue (← advance).pos : Parser Expression) c = .ok (x, c')) :
    Echo (do return .thisValue (← advance).pos) Expression.relabel c x.pieces x c' := by
  obtain ⟨m, hnext, h⟩ := advance_bind_eq_ok.mp h
  obtain ⟨rfl, rfl⟩ := pure_eq_ok.mp h
  rw [Expression.pieces]
  refine ⟨.mapped his (by decide) hnext .nil,
    ⟨_, [], rfl, (by decide : beginsOperand "this" = true)⟩, fun _ _ => rfl,
    fun drop rest _ hsits => (Piece.sits_quiet (by decide)).mpr hsits,
    fun w broken d d' hspells _ => ?_⟩
  obtain ⟨-, -, m', hm', rfl⟩ := (Wording.spells_sign (by decide)).mp hspells
  exact ⟨_, advance_bind_eq_ok.mpr ⟨m', hm', rfl⟩, rfl⟩

theorem Echo.identifierExpression {x : Expression}
    (h : (do return .identifier (← Parser.identifier) : Parser Expression) c = .ok (x, c')) :
    Echo (do return .identifier (← Parser.identifier)) Expression.relabel c x.pieces x c' := by
  obtain ⟨id, m, hid, h⟩ := bind_eq_ok.mp h
  obtain ⟨rfl, rfl⟩ := pure_eq_ok.mp h
  rw [Expression.pieces]
  exact (Echo.identifier hid).answer fun w y hcopy =>
    ⟨.identifier y, fun _ => rfl, congrArg Expression.identifier hcopy⟩

theorem Echo.paren (hinner : inner.Echoes) {x : Expression} (his : c.token.is "(" = true)
    (h : Grammar.paren inner c = .ok (x, c')) :
    Echo (Grammar.paren inner) Expression.relabel c x.pieces x c' := by
  obtain ⟨m, hnext, h⟩ := advance_bind_eq_ok.mp h
  obtain ⟨inside, n, hinside, h⟩ := bind_eq_ok.mp h
  obtain ⟨his', n', hnext', h⟩ := expect_bind_eq_ok.mp h
  obtain ⟨rfl, rfl⟩ := pure_eq_ok.mp h
  have henclosed := (Echo.expression hinner hinside).enclosed (by decide) (by decide) his hnext his'
    hnext' (some c.token.pos) (by simp)
  rw [Expression.pieces]
  refine ⟨henclosed.leads, ⟨_, _, rfl, (by decide : beginsOperand "(" = true)⟩, henclosed.firm,
    fun drop rest _ => henclosed.sits drop rest, fun w broken d d' hspells _ => ?_⟩
  obtain ⟨-, m', hm', -, y, n', hy, hn', hd', hcopy⟩ := henclosed.again w broken d d' hspells
  refine ⟨_, advance_bind_eq_ok.mpr ⟨m', hm', bind_eq_ok.mpr ⟨y, n', hy,
    expect_bind_eq_ok.mpr ⟨hn', d', hd', rfl⟩⟩⟩, ?_⟩
  exact congrArg (Expression.paren .start) hcopy

/-- The pieces of the name of a function, if it has one. -/
def functionNamePieces : Option Identifier → List Piece
  | none => []
  | some id => [.space, .name id]

theorem Function.pieces_eq (pos : Position) (id : Option Identifier)
    (parts : List Identifier × List Statement) :
    (Function.mk pos id parts.1 parts.2).pieces =
      .mapped "function" pos :: (functionNamePieces id ++ partsPieces parts) := by
  cases id <;> simp [Function.pieces, functionNamePieces, partsPieces]

/-- The echo of the name of a function, which an opening parenthesis follows. -/
structure NameEcho (parser : Parser (Option Identifier)) (c : Cursor) (id : Option Identifier)
    (c' : Cursor) : Prop where
  traces : Traces c (functionNamePieces id) c'
  again : ∀ (w : Wording) broken d d', w.Spells broken (functionNamePieces id) d d' →
    d'.token.is "(" = true →
    ∃ y, parser d = .ok (y, d') ∧ Copies (fun r => Option.map r.identifier) w y id

theorem NameEcho.functionName {id : Option Identifier}
    (h : Grammar.functionName c = .ok (id, c')) : NameEcho Grammar.functionName c id c' := by
  unfold Grammar.functionName at h
  rw [peek_bind] at h
  rcases ite_eq_ok.mp h with ⟨his, h⟩ | ⟨hnot, h⟩
  · obtain ⟨rfl, rfl⟩ := pure_eq_ok.mp h
    refine ⟨.nil, ?_⟩
    rintro w broken d d' rfl hparen
    exact ⟨none, ite_eq_ok.mpr (.inl ⟨hparen, rfl⟩), rfl⟩
  · obtain ⟨x, m, hx, h⟩ := bind_eq_ok.mp h
    obtain ⟨rfl, rfl⟩ := pure_eq_ok.mp h
    have hecho := ClosedEcho.identifier hx
    refine ⟨.layout rfl hecho.leads.traces, fun w broken d d' hspells _ => ?_⟩
    have hspells := Wording.spells_space.mp hspells
    have hid := (Wording.spells_name.mp hspells).1
    have hword : d.token.is "(" = false :=
      Token.is_of_isIdentifier (Cursor.spelled (Token.isIdentifier_kind hid).1) hid (by decide)
    obtain ⟨y, hy, hcopy⟩ := hecho.again w broken d d' hspells
    exact ⟨some y, ite_eq_ok.mpr (.inr ⟨by simp [hword], bind_eq_ok.mpr ⟨y, d', hy, rfl⟩⟩),
      congrArg some hcopy⟩

theorem Echo.functionExpression (hinner : inner.Echoes) {x : Expression}
    (his : c.token.is "function" = true)
    (h : Grammar.functionExpression inner c = .ok (x, c')) :
    Echo (Grammar.functionExpression inner) Expression.relabel c x.pieces x c' := by
  obtain ⟨m, hnext, h⟩ := advance_bind_eq_ok.mp h
  obtain ⟨id, n, hid, h⟩ := bind_eq_ok.mp h
  obtain ⟨parts, n', hparts, h⟩ := bind_eq_ok.mp h
  obtain ⟨rfl, rfl⟩ := pure_eq_ok.mp h
  have hid := NameEcho.functionName hid
  have hparts := ClosedEcho.functionParts hinner (fun _ _ _ => ClosedEcho.parameters) hparts
  rw [Expression.pieces, Function.pieces_eq]
  refine ⟨.mapped his (by decide) hnext (hid.traces.append hparts.leads.traces),
    ⟨_, _, rfl, (by decide : beginsOperand "function" = true)⟩, fun w broken => ?_,
    fun drop rest _ hsits => ?_, fun w broken d d' hspells _ => ?_⟩
  · exact (Wording.pending_append ..).trans (hparts.firm w _)
  · have hsits' := hparts.sits drop rest hsits
    refine (Piece.sits_quiet (by decide)).mpr ?_
    cases id <;> exact hsits'
  · obtain ⟨-, -, m', hm', hspells₁⟩ := (Wording.spells_sign (by decide)).mp hspells
    obtain ⟨n', hspells₂, hspells₃⟩ := Wording.spells_append.mp hspells₁
    have hparen := ((Wording.spells_sign (by decide)).mp hspells₃).1
    obtain ⟨id', hid', hcopy⟩ := hid.again w _ m' n' hspells₂ hparen
    obtain ⟨parts', hparts', hcopy'⟩ := hparts.again w _ n' d' hspells₃
    refine ⟨_, advance_bind_eq_ok.mpr ⟨m', hm', bind_eq_ok.mpr ⟨id', n', hid',
      bind_eq_ok.mpr ⟨parts', d', hparts', rfl⟩⟩⟩, ?_⟩
    obtain ⟨hparams, hbody⟩ := Prod.mk.inj hcopy'
    simp only [Copies] at hcopy
    simp only [Copies, Expression.relabel, Function.relabel, hcopy, hparams, hbody]
    rfl

/-! ### The first token decides -/

theorem primary_number (h : c.token.kind = .number) :
    Grammar.primary inner c = Grammar.literal .number c := by
  rw [Grammar.primary, peek_bind, h]

theorem primary_string (h : c.token.kind = .string) :
    Grammar.primary inner c = Grammar.literal .string c := by
  rw [Grammar.primary, peek_bind, h]

theorem primary_identifier (h : c.token.isIdentifier = true) :
    Grammar.primary inner c =
      (do return .identifier (← Parser.identifier) : Parser Expression) c := by
  obtain ⟨hkind, hreserved⟩ := Token.isIdentifier_iff.mp h
  rw [Grammar.primary, peek_bind]
  generalize c.token.kind = k at hkind
  generalize c.token.text = s at hreserved
  split <;> first
    | rfl
    | exact absurd hreserved (by decide)
    | exact absurd hkind (by decide)
    | contradiction

theorem primary_slash (h : c.token.isSlash = true) :
    Grammar.primary inner c = Grammar.regex c := by
  have hkind := (Cursor.spelled (Token.isSlash_text h).1).slash_kind h
  rw [Grammar.primary, peek_bind, hkind]
  rcases (Token.isSlash_text h).2 with htext | htext <;> rw [htext] <;> rfl

theorem Echo.primary (hinner : inner.Echoes) {x : Expression}
    (h : Grammar.primary inner c = .ok (x, c')) :
    Echo (Grammar.primary inner) Expression.relabel c x.pieces x c' := by
  rw [Grammar.primary, peek_bind] at h
  generalize hk : c.token.kind = k at h
  generalize ht : c.token.text = s at h
  have hname : k = .name → c.token.is s = true := fun hname =>
    Token.is_iff.mpr ⟨.inr (hk.trans hname), ht⟩
  have hpunct : k = .punct → c.token.is s = true := fun hpunct =>
    Token.is_iff.mpr ⟨.inl (hk.trans hpunct), ht⟩
  split at h
  · exact (Echo.literal (by decide) (by simp [Token.isEnd, hk]) (fun _ => rfl) h).dispatch
      fun d hpeer => primary_number (hpeer.kind ▸ hk)
  · exact (Echo.literal (by decide) (by simp [Token.isEnd, hk]) (by simp [hk]) h).dispatch
      fun d hpeer => primary_string (hpeer.kind ▸ hk)
  · refine (Echo.thisValue (hname rfl) h).dispatchFirm hk ht (.inl rfl) (by decide) ?_
    intro d hk ht
    rw [Grammar.primary, peek_bind, hk, ht]
    rfl
  · refine Echo.literalWord (by decide) hk ht (by decide) (fun d hk ht => ?_) h
    rw [Grammar.primary, peek_bind, hk, ht]
    rfl
  · refine Echo.literalWord (by decide) hk ht (by decide) (fun d hk ht => ?_) h
    rw [Grammar.primary, peek_bind, hk, ht]
    rfl
  · refine Echo.literalWord (by decide) hk ht (by decide) (fun d hk ht => ?_) h
    rw [Grammar.primary, peek_bind, hk, ht]
    rfl
  · refine (Echo.functionExpression hinner (hname rfl) h).dispatchFirm hk ht (.inl rfl)
      (by decide) ?_
    intro d hk ht
    rw [Grammar.primary, peek_bind, hk, ht]
    rfl
  · have hid := (identifier_bind_eq_ok.mp h).1
    exact (Echo.identifierExpression h).dispatch fun d hpeer =>
      primary_identifier (hpeer.isIdentifier hid)
  · have hslash : c.token.isSlash = true := by simp [Token.isSlash, hpunct rfl]
    exact (Echo.regex hslash h).dispatch fun d hpeer => primary_slash (hpeer.isSlash hslash)
  · have hslash : c.token.isSlash = true := by simp [Token.isSlash, hpunct rfl]
    exact (Echo.regex hslash h).dispatch fun d hpeer => primary_slash (hpeer.isSlash hslash)
  · have hecho := ClosedEcho.array hinner (hpunct rfl) h
    refine (hecho.echo ?_).dispatchFirm hk ht (.inr rfl) (by decide) ?_
    · exact hecho.leads.opens (hpunct rfl) (by decide)
    · intro d hk ht
      rw [Grammar.primary, peek_bind, hk, ht]
      rfl
  · have hecho := ClosedEcho.object hinner (hpunct rfl) h
    refine (hecho.echo ?_).dispatchFirm hk ht (.inr rfl) (by decide) ?_
    · exact hecho.leads.opens (hpunct rfl) (by decide)
    · intro d hk ht
      rw [Grammar.primary, peek_bind, hk, ht]
      rfl
  · refine (Echo.paren hinner (hpunct rfl) h).dispatchFirm hk ht (.inr rfl) (by decide) ?_
    intro d hk ht
    rw [Grammar.primary, peek_bind, hk, ht]
    rfl
  · cases unexpected_eq_ok.mp h

end EcmaPress

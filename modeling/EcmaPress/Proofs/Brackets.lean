import EcmaPress.Proofs.Echo

/-!
# Echoes of what stands in brackets

Lists of expressions and of statements, and the constructs that brackets enclose: blocks,
parameters, arguments, and the literals of arrays and objects. Every such construct ends by its
closing bracket, so its echo does not depend on what stands behind it.
-/

namespace EcmaPress

open EcmaPress.Parser

variable {inner : Inner} {c c' : Cursor}

theorem expressionsPieces_eq (xs : List Expression) :
    expressionsPieces xs = separatedPieces Expression.pieces xs :=
  separatedPieces_eq rfl (fun _ _ => rfl) xs

theorem Echo.expression (hinner : inner.Echoes) {noIn : Bool} {x : Expression}
    (h : Grammar.expression inner noIn c = .ok (x, c')) :
    Echo (Grammar.expression inner noIn) Expression.relabel c x.pieces x c' := by
  obtain ⟨xs, m, hxs, h⟩ := bind_eq_ok.mp h
  have hecho := Echo.separated (hinner.assignment noIn) hxs
  split at h
  · next single =>
    obtain ⟨rfl, rfl⟩ := pure_eq_ok.mp h
    have hpieces : separatedPieces Expression.pieces [single] = single.pieces :=
      List.append_nil _
    refine (hpieces ▸ hecho).answer fun w ys hcopy => ?_
    obtain ⟨y, rfl, hy⟩ := List.map_eq_singleton_iff.mp hcopy
    exact ⟨y, fun d => rfl, hy⟩
  · next hmany =>
    obtain ⟨rfl, rfl⟩ := pure_eq_ok.mp h
    have hpieces : separatedPieces Expression.pieces xs = (Expression.sequence xs).pieces := by
      rw [Expression.pieces, expressionsPieces_eq]
    refine (hpieces ▸ hecho).answer fun w ys hcopy => ⟨.sequence ys, fun d => ?_, ?_⟩
    · split
      · next single =>
        obtain ⟨x, hx, -⟩ := List.map_eq_singleton_iff.mp hcopy.symm
        exact absurd hx (hmany x)
      · rfl
    · simp only [Copies, Expression.relabel, relabelExpressions_eq]
      exact congrArg Expression.sequence hcopy

/-! ### A pair of brackets -/

/-- What makes a sign fit for a bracket. -/
def isBracket (text : String) : Bool :=
  isQuiet text && isWord text && text != "," && !beginsWord text &&
    (UpdateOperator.ofSymbol? text).isNone

/-- A construct between two brackets: the run of its parser from behind the first one up to the
last one, and the pieces of the whole. -/
structure Enclosed {α : Type} (parser : Parser α) (relabel : Relabeling → α → α)
    (opening closing : String) (c inside : Cursor) (ps : List Piece) (x : α) (c' : Cursor) :
    Prop where
  leads : Leads c ps c'
  firm : ∀ w : Wording, ∀ broken, w.pending broken ps = false
  sits : ∀ drop rest, Piece.Sits drop rest → Piece.Sits drop (ps ++ rest)
  again : ∀ (w : Wording) broken d d', w.Spells broken ps d d' →
    d.token.is opening = true ∧ ∃ m, d.next = .ok m ∧ inside.token.Peer m.token ∧
      ∃ y n, parser m = .ok (y, n) ∧ n.token.is closing = true ∧ n.next = .ok d' ∧
        Copies relabel w y x

theorem pending_closing {w : Wording} {broken : Bool} {ps : List Piece} {s : String} :
    w.pending broken (ps ++ [.sign s]) = false := by
  rw [Wording.pending_append]
  rfl

/-- The echo of what stands before a closing bracket. -/
structure InsideEcho {α : Type} (parser : Parser α) (relabel : Relabeling → α → α)
    (closing : String) (c : Cursor) (ps : List Piece) (x : α) (c' : Cursor) : Prop where
  leads : Leads c ps c'
  sits : ∀ drop rest, Piece.Calm drop rest → Piece.Sits drop rest → Piece.Sits drop (ps ++ rest)
  again : ∀ (w : Wording) broken d d', w.Spells broken ps d d' →
    d'.token.is closing = true → ∃ y, parser d = .ok (y, d') ∧ Copies relabel w y x

theorem InsideEcho.enclosed {α : Type} {parser : Parser α} {relabel : Relabeling → α → α}
    {opening closing : String} {m n : Cursor} {ps : List Piece} {x : α}
    (h : InsideEcho parser relabel closing m ps x n) (hopening : isBracket opening = true)
    (hclosing : isBracket closing = true) (his : c.token.is opening = true)
    (hnext : c.next = .ok m) (his' : n.token.is closing = true) (hnext' : n.next = .ok c')
    (origin : Option Position) (horigin : ∀ pos ∈ origin, c.token.pos = pos) :
    Enclosed parser relabel opening closing c m
      (.token opening origin .plain :: ps ++ [.sign closing]) x c' := by
  simp only [isBracket, Bool.and_eq_true, bne_iff_ne, Bool.not_eq_true', Option.isNone_iff_eq_none]
    at hopening hclosing
  obtain ⟨⟨⟨⟨hquiet, hword⟩, hcomma⟩, -⟩, -⟩ := hopening
  obtain ⟨⟨⟨⟨hquiet', hword'⟩, hcomma'⟩, hbegins⟩, -⟩ := hclosing
  have htext := (Token.is_iff.mp his).2
  have hinside : Traces m (ps ++ [.sign closing]) c' :=
    h.leads.traces.append (Leads.sign his' hcomma' hnext' .nil).traces
  refine ⟨?_, fun w broken => pending_closing, fun drop rest hsits => ?_, ?_⟩
  · subst htext
    exact .token (Token.is_kind his) (Token.is_isEnd his) hnext (by decide) horigin hcomma hinside
  · refine (Piece.sits_quiet hquiet).mpr ?_
    show Piece.Sits drop ((ps ++ [.sign closing]) ++ rest)
    rw [List.append_assoc]
    exact h.sits drop _ (Piece.calm_sign hbegins) ((Piece.sits_quiet hquiet').mpr hsits)
  · intro w broken d d' hspells
    obtain ⟨hd, -, m', hm', hrest⟩ := (Wording.spells_sign hword).mp hspells
    obtain ⟨n', hps, hclose⟩ := Wording.spells_append.mp hrest
    obtain ⟨hn', -, d'', hd'', rfl⟩ := (Wording.spells_sign hword').mp hclose
    obtain ⟨y, hy, hcopy⟩ := h.again w _ m' n' hps hn'
    exact ⟨hd, m', hm', h.leads.peer hps, y, n', hy, hn', hd'', hcopy⟩

theorem Echo.enclosed {α : Type} {parser : Parser α} {relabel : Relabeling → α → α}
    {opening closing : String} {m n : Cursor} {ps : List Piece} {x : α}
    (h : Echo parser relabel m ps x n) (hopening : isBracket opening = true)
    (hclosing : isBracket closing = true) (his : c.token.is opening = true)
    (hnext : c.next = .ok m) (his' : n.token.is closing = true) (hnext' : n.next = .ok c')
    (origin : Option Position) (horigin : ∀ pos ∈ origin, c.token.pos = pos) :
    Enclosed parser relabel opening closing c m
      (.token opening origin .plain :: ps ++ [.sign closing]) x c' :=
  have hupdate : UpdateOperator.ofSymbol? closing = none := by
    simp only [isBracket, Bool.and_eq_true, Option.isNone_iff_eq_none] at hclosing
    exact hclosing.2
  have hinside : InsideEcho parser relabel closing m ps x n :=
    ⟨h.leads, h.sits, fun w broken d d' hspells hclose =>
      h.again w broken d d' hspells (.ofIs his' hclose hupdate)⟩
  hinside.enclosed hopening hclosing his hnext his' hnext' origin horigin

theorem ClosedEcho.parenthesized (hinner : inner.Echoes) {x : Expression}
    (h : Grammar.parenthesized inner c = .ok (x, c')) :
    ClosedEcho (Grammar.parenthesized inner) Expression.relabel c (Piece.inParens x.pieces) x c' := by
  obtain ⟨his, m, hnext, h⟩ := expect_bind_eq_ok.mp h
  obtain ⟨y, n, hx, h⟩ := bind_eq_ok.mp h
  obtain ⟨his', n', hnext', h⟩ := expect_bind_eq_ok.mp h
  obtain ⟨rfl, rfl⟩ := pure_eq_ok.mp h
  have henclosed := (Echo.expression hinner hx).enclosed (by decide) (by decide) his hnext his' hnext'
    none (by simp)
  refine ⟨henclosed.leads, henclosed.firm, henclosed.sits, fun w broken d d' hspells => ?_⟩
  obtain ⟨hd, m', hm', -, y, n', hy, hn', hd', hcopy⟩ := henclosed.again w broken d d' hspells
  exact ⟨y, expect_bind_eq_ok.mpr ⟨hd, m', hm', bind_eq_ok.mpr ⟨y, n', hy,
    expect_bind_eq_ok.mpr ⟨hn', d', hd', rfl⟩⟩⟩, hcopy⟩

/-- Two brackets with nothing between them. -/
theorem Leads.brackets {opening closing : String} {m : Cursor} (his : c.token.is opening = true)
    (hopening : opening ≠ ",") (hnext : c.next = .ok m) (his' : m.token.is closing = true)
    (hclosing : closing ≠ ",") (hnext' : m.next = .ok c') :
    Leads c [.sign opening, .sign closing] c' :=
  .sign his hopening hnext (Leads.sign his' hclosing hnext' .nil).traces

/-- Two round brackets with nothing between them, in a text and in its copy. -/
theorem ClosedEcho.noItems {α : Type} {parser : Parser (List α)} {relabel : Relabeling → α → α}
    {m : Cursor} (his : c.token.is "(" = true) (hnext : c.next = .ok m)
    (his' : m.token.is ")" = true) (hnext' : m.next = .ok c')
    (hparser : ∀ d n d', d.token.is "(" = true → d.next = .ok n → n.token.is ")" = true →
      n.next = .ok d' → parser d = .ok ([], d')) :
    ClosedEcho parser (fun r => List.map (relabel r)) c (Piece.inParens []) [] c' := by
  refine ⟨.brackets his (by decide) hnext his' (by decide) hnext', fun _ _ => rfl,
    fun drop rest hsits => ?_, fun w broken d d' hspells => ?_⟩
  · exact (Piece.sits_quiet (by decide)).mpr ((Piece.sits_quiet (by decide)).mpr hsits)
  · obtain ⟨hd, -, n, hn, hrest⟩ := (Wording.spells_sign (by decide)).mp hspells
    obtain ⟨hd', -, n', hn', rfl⟩ := (Wording.spells_sign (by decide)).mp hrest
    exact ⟨[], hparser d n n' hd hn hd' hn', rfl⟩

theorem ClosedEcho.inParens {α : Type} {item : Parser α} {pieces : α → List Piece}
    {relabel : Relabeling → α → α}
    (hitem : ∀ c x c', item c = .ok (x, c') → Echo item relabel c (pieces x) x c')
    {xs : List α} (h : Parser.inParens item c = .ok (xs, c')) :
    ClosedEcho (Parser.inParens item) (fun r => List.map (relabel r)) c
      (Piece.inParens (separatedPieces pieces xs)) xs c' := by
  obtain ⟨his, m, hnext, h⟩ := expect_bind_eq_ok.mp h
  obtain ⟨his', m', hnext', h⟩ | ⟨hnot, h⟩ := eat_bind_eq_ok.mp h
  · obtain ⟨rfl, rfl⟩ := pure_eq_ok.mp h
    exact .noItems his hnext his' hnext' fun d n d' hd hn hd' hn' =>
      expect_bind_eq_ok.mpr ⟨hd, n, hn, eat_bind_eq_ok.mpr (.inl ⟨hd', d', hn', rfl⟩)⟩
  · obtain ⟨ys, n, hxs, h⟩ := bind_eq_ok.mp h
    obtain ⟨his', n', hnext', h⟩ := expect_bind_eq_ok.mp h
    obtain ⟨rfl, rfl⟩ := pure_eq_ok.mp h
    have henclosed := (Echo.separated hitem hxs).enclosed (by decide) (by decide) his hnext his'
      hnext' none (by simp)
    refine ⟨henclosed.leads, henclosed.firm, henclosed.sits, fun w broken d d' hspells => ?_⟩
    obtain ⟨hd, m', hm', hpeer, zs, n', hzs, hn', hd', hcopy⟩ := henclosed.again w broken d d' hspells
    have hnot' : m'.token.is ")" = false := (hpeer.is_eq (by decide)).symm.trans hnot
    exact ⟨zs, expect_bind_eq_ok.mpr ⟨hd, m', hm', eat_bind_eq_ok.mpr (.inr ⟨hnot',
      bind_eq_ok.mpr ⟨zs, n', hzs, expect_bind_eq_ok.mpr ⟨hn', d', hd', rfl⟩⟩⟩)⟩, hcopy⟩

/-! ### Lists of statements -/

/-- The pieces of statements, each with some layout before it and some behind it. -/
def linesPieces (before behind : List Piece) (last : Bool) : List Statement → List Piece
  | [] => []
  | s :: rest =>
    before ++ s.pieces (last && rest.isEmpty) ++ behind ++ linesPieces before behind last rest

theorem statementsPieces_eq (last : Bool) (xs : List Statement) :
    statementsPieces last xs = linesPieces [.newline] [] last xs := by
  induction xs with
  | nil => rfl
  | cons s rest ih => simp [statementsPieces, linesPieces, ih]

theorem Program.pieces_eq (program : Program) :
    program.pieces = linesPieces [] [.newline] true program.body := by
  unfold Program.pieces
  induction program.body with
  | nil => rfl
  | cons s rest ih => simp [Program.pieces.go, linesPieces, ih]

/-- The last item of all is that of the last list, where no items follow. -/
theorem last_item {α : Type} {last drop : Bool} {rest : List α}
    (h : ((last && rest.isEmpty) && drop) = true) : rest = [] ∧ (last && drop) = true := by
  simp only [Bool.and_eq_true] at h
  exact ⟨List.isEmpty_iff.mp h.1.2, by simp [h]⟩

/-- The echo of a list that may be empty and may end in a dropped semicolon, as statements make
one. The token behind it is no part of it. -/
structure LinesEcho {α : Type} (parser : Parser α) (relabel : Relabeling → α → α) (c : Cursor)
    (last : Bool) (ps : List Piece) (x : α) (c' : Cursor) : Prop where
  traces : Traces c ps c'
  sits : ∀ drop rest, ((last && drop) = true → Piece.Closes drop rest) → Piece.Sits drop rest →
    Piece.Sits drop (ps ++ rest)
  again : ∀ (w : Wording) broken d d', w.Spells broken ps d d' →
    c'.token.FollowsLines (last && w.drop) d'.token → c.token.Peer d.token ∧
      ∃ y, parser d = .ok (y, d') ∧ Copies relabel w y x

theorem statementUnless_some {stop : Token → Bool} {s : Statement} :
    Grammar.statementUnless inner stop c = .ok (some s, c') ↔
      stop c.token = false ∧ c.token.isEnd = false ∧ inner.statement c = .ok (s, c') := by
  simp only [Grammar.statementUnless, peek_bind, ite_eq_ok, pure_eq_ok, unexpected_eq_ok,
    bind_eq_ok, reduceCtorEq, false_and, and_false, false_or, Bool.not_eq_true, Option.some.injEq]
  constructor
  · rintro ⟨hstop, hend, y, m, hs, rfl, rfl⟩
    exact ⟨hstop, hend, hs⟩
  · rintro ⟨hstop, hend, hs⟩
    exact ⟨hstop, hend, s, c', hs, rfl, rfl⟩

theorem statementUnless_none {stop : Token → Bool} :
    Grammar.statementUnless inner stop c = .ok (none, c') ↔ stop c.token = true ∧ c = c' := by
  simp [Grammar.statementUnless, ite_eq_ok, pure_eq_ok, unexpected_eq_ok, map_eq_ok]

theorem LinesEcho.statementsUntil (hinner : inner.Echoes) {stop : Token → Bool}
    (hstop : ∀ t u : Token, t.Peer u → stop t = stop u) {before behind : List Piece}
    (hbefore : before.all Piece.isLayout = true) (hbehind : behind.all Piece.isLayout = true)
    (last : Bool) {xs : List Statement}
    (h : Grammar.statementsUntil inner stop c = .ok (xs, c')) :
    LinesEcho (Grammar.statementsUntil inner stop) relabelStatements c last
      (linesPieces before behind last xs) xs c' := by
  induction xs generalizing c with
  | nil =>
    obtain ⟨hend, rfl⟩ := statementUnless_none.mp (many_nil.mp h)
    refine ⟨.nil, fun _ _ _ hsits => hsits, ?_⟩
    rintro w broken d d' rfl ⟨hpeer, -⟩
    exact ⟨hpeer, [], many_nil.mpr (statementUnless_none.mpr ⟨hstop _ _ hpeer ▸ hend, rfl⟩), rfl⟩
  | cons s rest ih =>
    obtain ⟨m, hfirst, -, hrest⟩ := many_cons.mp h
    obtain ⟨hgo, hend, hs⟩ := statementUnless_some.mp hfirst
    have hecho := hinner.statement _ _ _ hs (last && rest.isEmpty)
    have hlines := ih hrest
    refine ⟨?_, fun drop more hcloses hsits => ?_, fun w broken d d' hspells hfollow => ?_⟩
    · have hbehind' := Traces.layouts hbehind hlines.traces
      have hall := Traces.layouts hbefore (hecho.leads.traces.append hbehind')
      simpa only [linesPieces, List.append_assoc] using hall
    · simp only [linesPieces, List.append_assoc]
      refine (Piece.sits_layout hbefore).mpr (hecho.sits drop _ (fun hlast => ?_)
        ((Piece.sits_layout hbehind).mpr (hlines.sits drop more hcloses hsits)))
      obtain ⟨rfl, hdropped⟩ := last_item hlast
      exact Piece.closes_layout hbehind (hcloses hdropped)
    · simp only [linesPieces, List.append_assoc, Wording.spells_append,
        Wording.spells_layout hbefore, Wording.spells_layout hbehind] at hspells
      obtain ⟨_, rfl, n, hspells, _, rfl, hspells'⟩ := hspells
      obtain ⟨hpeer, ys, hys, hcopies⟩ := hlines.again w _ n d' hspells' hfollow
      have hclosed : ((last && rest.isEmpty) && w.drop) = true → n.token.closesBody = true := by
        intro hlast
        obtain ⟨rfl, hdropped⟩ := last_item hlast
        obtain rfl : n = d' := hspells'
        exact hfollow.closes hdropped
      obtain ⟨y, hy, hcopy⟩ := hecho.again w _ d n hspells ⟨hpeer.parallel, hclosed⟩
      have hpeer' := hecho.leads.peer hspells
      refine ⟨hpeer', y :: ys, many_cons.mpr ⟨n, statementUnless_some.mpr ⟨?_, ?_, hy⟩,
        hecho.leads.size_lt hspells, hys⟩, ?_⟩
      · rw [← hstop _ _ hpeer', hgo]
      · rw [Token.isEnd, ← hpeer'.kind]
        exact hend
      · rw [Copies, relabelStatements, relabelStatements, hcopies, hcopy]

theorem statementsUntil_end {stop : Token → Bool} {xs : List Statement}
    (h : Grammar.statementsUntil inner stop c = .ok (xs, c')) : stop c'.token = true := by
  obtain ⟨m, hm⟩ := many_end h
  obtain ⟨hstop, rfl⟩ := statementUnless_none.mp hm
  exact hstop

theorem ClosedEcho.block (hinner : inner.Echoes) {body : List Statement}
    (h : Grammar.block inner c = .ok (body, c')) :
    ClosedEcho (Grammar.block inner) relabelStatements c
      (Piece.inBraces (statementsPieces true body)) body c' := by
  obtain ⟨his, m, hnext, h⟩ := expect_bind_eq_ok.mp h
  obtain ⟨body', n, hbody, h⟩ := bind_eq_ok.mp h
  obtain ⟨n', hnext', h⟩ := advance_bind_eq_ok.mp h
  obtain ⟨rfl, rfl⟩ := pure_eq_ok.mp h
  have hend := statementsUntil_end hbody
  have hlines : LinesEcho _ _ m true (linesPieces [.newline] [] true body') body' n :=
    .statementsUntil hinner (fun t u hpeer => hpeer.is_eq (by decide)) rfl rfl true hbody
  rw [← statementsPieces_eq] at hlines
  have hpieces : ∃ before behind, before.all Piece.isLayout = true ∧
      behind.all Piece.isLayout = true ∧ Piece.inBraces (statementsPieces true body') =
        .sign "\x7b" :: before ++ statementsPieces true body' ++ behind ++ [.sign "\x7d"] := by
    unfold Piece.inBraces
    split
    · next hempty => exact ⟨[], [], rfl, rfl, by rw [List.isEmpty_iff.mp hempty]; rfl⟩
    · exact ⟨[.indent], [.dedent, .newline], rfl, rfl, by simp⟩
  obtain ⟨before, behind, hbefore, hbehind, hpieces⟩ := hpieces
  rw [hpieces]
  simp only [List.append_assoc, List.cons_append]
  refine ⟨?_, fun w broken => ?_, fun drop rest hsits => ?_, fun w broken d d' hspells => ?_⟩
  · refine .sign his (by decide) hnext (.layouts hbefore (hlines.traces.append (.layouts hbehind ?_)))
    exact (Leads.sign hend (by decide) hnext' .nil).traces
  · rw [Wording.pending]
    simp only [Piece.sign, Piece.text]
    rw [← List.append_assoc, ← List.append_assoc]
    exact pending_closing
  · refine (Piece.sits_quiet (by decide)).mpr ?_
    show Piece.Sits drop
      ((before ++ (statementsPieces true body' ++ (behind ++ [.sign "\x7d"]))) ++ rest)
    simp only [List.append_assoc]
    rw [Piece.sits_layout hbefore]
    refine hlines.sits drop _ (fun _ => Piece.closes_layout hbehind ?_)
      ((Piece.sits_layout hbehind).mpr ((Piece.sits_quiet (by decide)).mpr hsits))
    rintro spaced q ⟨⟩
    rfl
  · obtain ⟨hd, -, m', hm', hrest⟩ := (Wording.spells_sign (by decide)).mp hspells
    simp only [Wording.spells_append, Wording.spells_layout hbefore,
      Wording.spells_layout hbehind] at hrest
    obtain ⟨_, rfl, n', hspells', _, rfl, hclose⟩ := hrest
    obtain ⟨hd', -, n'', hn'', rfl⟩ := (Wording.spells_sign (by decide)).mp hclose
    have hcloses : n'.token.closesBody = true := by simp [Token.closesBody, hd']
    obtain ⟨-, ys, hys, hcopy⟩ := hlines.again w _ m' n' hspells' ⟨.ofIs hend hd', fun _ => hcloses⟩
    exact ⟨ys, expect_bind_eq_ok.mpr ⟨hd, m', hm', bind_eq_ok.mpr ⟨ys, n', hys,
      advance_bind_eq_ok.mpr ⟨n'', hn'', rfl⟩⟩⟩, hcopy⟩

/-! ### Functions -/

/-- The pieces of the parameters and the body of a function. -/
def partsPieces (parts : List Identifier × List Statement) : List Piece :=
  Piece.inParens (Piece.parameters parts.1) ++
    .space :: Piece.inBraces (statementsPieces true parts.2)

/-- The parameters and the body of a function with new labels. -/
def relabelParts (r : Relabeling) (parts : List Identifier × List Statement) :
    List Identifier × List Statement :=
  (parts.1.map r.identifier, relabelStatements r parts.2)

theorem parameters_eq (xs : List Identifier) :
    Piece.parameters xs = separatedPieces (fun id => [.name id]) xs :=
  separatedPieces_eq rfl (fun _ _ => rfl) xs

theorem ClosedEcho.parameters {xs : List Identifier} (h : Grammar.parameters c = .ok (xs, c')) :
    ClosedEcho Grammar.parameters (fun r => List.map r.identifier) c
      (Piece.inParens (Piece.parameters xs)) xs c' := by
  rw [parameters_eq]
  exact .inParens (fun _ _ _ => Echo.identifier) h

theorem ClosedEcho.accessorParameters {kind : AccessorKind} {xs : List Identifier}
    (h : Grammar.accessorParameters kind c = .ok (xs, c')) :
    ClosedEcho (Grammar.accessorParameters kind) (fun r => List.map r.identifier) c
      (Piece.inParens (Piece.parameters xs)) xs c' := by
  cases kind with
  | get =>
    obtain ⟨his, m, hnext, h⟩ := expect_bind_eq_ok.mp h
    obtain ⟨his', m', hnext', h⟩ := expect_bind_eq_ok.mp h
    obtain ⟨rfl, rfl⟩ := pure_eq_ok.mp h
    exact .noItems his hnext his' hnext' fun d n d' hd hn hd' hn' =>
      expect_bind_eq_ok.mpr ⟨hd, n, hn, expect_bind_eq_ok.mpr ⟨hd', d', hn', rfl⟩⟩
  | set =>
    obtain ⟨his, m, hnext, h⟩ := expect_bind_eq_ok.mp h
    obtain ⟨id, n, hid, h⟩ := bind_eq_ok.mp h
    obtain ⟨his', n', hnext', h⟩ := expect_bind_eq_ok.mp h
    obtain ⟨rfl, rfl⟩ := pure_eq_ok.mp h
    have henclosed := (Echo.identifier hid).enclosed (by decide) (by decide) his hnext his' hnext'
      none (by simp)
    refine ⟨henclosed.leads, henclosed.firm, henclosed.sits, fun w broken d d' hspells => ?_⟩
    obtain ⟨hd, m', hm', -, y, n', hy, hn', hd', hcopy⟩ := henclosed.again w broken d d' hspells
    exact ⟨[y], expect_bind_eq_ok.mpr ⟨hd, m', hm', bind_eq_ok.mpr ⟨y, n', hy,
      expect_bind_eq_ok.mpr ⟨hn', d', hd', rfl⟩⟩⟩, Copies.cons hcopy rfl⟩

theorem ClosedEcho.functionParts (hinner : inner.Echoes) {parameters : Parser (List Identifier)}
    (hparameters : ∀ c xs c', parameters c = .ok (xs, c') →
      ClosedEcho parameters (fun r => List.map r.identifier) c
        (Piece.inParens (Piece.parameters xs)) xs c')
    {parts : List Identifier × List Statement}
    (h : Grammar.functionParts inner parameters c = .ok (parts, c')) :
    ClosedEcho (Grammar.functionParts inner parameters) relabelParts c (partsPieces parts) parts
      c' := by
  obtain ⟨params, m, hparams, h⟩ := bind_eq_ok.mp h
  obtain ⟨body, n, hbody, h⟩ := bind_eq_ok.mp h
  obtain ⟨rfl, rfl⟩ := pure_eq_ok.mp h
  have hparams := hparameters _ _ _ hparams
  have hbody := ClosedEcho.block hinner hbody
  refine ⟨hparams.leads.append (.layout rfl hbody.leads.traces), fun w broken => ?_,
    fun drop rest hsits => ?_, fun w broken d d' hspells => ?_⟩
  · exact (Wording.pending_append ..).trans (hbody.firm w _)
  · rw [partsPieces, List.append_assoc]
    exact hparams.sits drop _ (hbody.sits drop rest hsits)
  · obtain ⟨m', hps, hqs⟩ := Wording.spells_append.mp hspells
    obtain ⟨ys, hys, hcopy⟩ := hparams.again w broken d m' hps
    obtain ⟨zs, hzs, hcopy'⟩ := hbody.again w _ m' d' (Wording.spells_space.mp hqs)
    refine ⟨(ys, zs), bind_eq_ok.mpr ⟨ys, m', hys, bind_eq_ok.mpr ⟨zs, d', hzs, rfl⟩⟩, ?_⟩
    exact Prod.ext hcopy hcopy'

/-! ### Items of a literal -/

theorem itemEnd_eq_ok {closing : String} {x : Unit} :
    Grammar.itemEnd closing c = .ok (x, c') ↔
      (c.token.is closing = true ∧ c = c') ∨
        (c.token.is closing = false ∧ c.token.is "," = true ∧ c.next = .ok c') := by
  simp only [Grammar.itemEnd, peek_bind, ite_eq_ok, pure_eq_ok, expect_bind_eq_ok,
    Bool.not_eq_true, true_and, exists_eq_right]

section Items

variable {α : Type}

/-- What `step` reads of a literal: the closing bracket; a comma, which may stand for a `missing`
item; or an item with the comma behind it, unless the literal ends there. -/
def ReadsItems (closing : String) (missing : Option α) (item : Parser α)
    (step : Parser (Option α)) : Prop :=
  ∀ c x c', step c = .ok (x, c') ↔
    (c.token.is closing = true ∧ x = none ∧ c.next = .ok c') ∨
      (c.token.is closing = false ∧ c.token.is "," = true ∧ ∃ y, missing = some y ∧ x = some y ∧
        c.next = .ok c') ∨
        (c.token.is closing = false ∧ (c.token.is "," = false ∨ missing = none) ∧
          ∃ y m, x = some y ∧ item c = .ok (y, m) ∧ Grammar.itemEnd closing m = .ok ((), c'))

/-- How the items of a literal are printed, the closing bracket included: with commas between
them, and layout anywhere. -/
structure PrintsItems (closing : String) (missing : Option α) (pieces : α → List Piece)
    (printed : List α → List Piece) : Prop where
  nil : ∃ ls : List Piece, ls.all Piece.isLayout = true ∧ printed [] = ls ++ [.sign closing]
  hole : ∀ y rest, missing = some y → ∃ ls : List Piece, ls.all Piece.isLayout = true ∧
    printed (y :: rest) = .sign "," :: (ls ++ printed rest)
  last : ∀ y, missing ≠ some y → ∃ ls : List Piece, ls.all Piece.isLayout = true ∧
    printed [y] = ls ++ (pieces y ++ printed [])
  item : ∀ y z rest, missing ≠ some y → ∃ ls ls' : List Piece, ls.all Piece.isLayout = true ∧
    ls'.all Piece.isLayout = true ∧
      printed (y :: z :: rest) = ls ++ (pieces y ++ .sign "," :: (ls' ++ printed (z :: rest)))

/-- The echo of the items of a literal with the bracket behind them. -/
structure ItemsEcho (step : Parser (Option α)) (relabel : Relabeling → α → α) (c : Cursor)
    (ps : List Piece) (xs : List α) (c' : Cursor) : Prop where
  heads : Heads c ps c'
  sits : ∀ drop rest, Piece.Sits drop rest → Piece.Sits drop (ps ++ rest)
  again : ∀ (w : Wording) broken d d', w.Spells broken ps d d' → ∃ ys,
    many step d = .ok (ys, d') ∧ Copies (fun r => List.map (relabel r)) w ys xs

variable {closing : String} {missing : Option α} {item : Parser α} {step : Parser (Option α)}
  {pieces : α → List Piece} {printed : List α → List Piece} {relabel : Relabeling → α → α}

theorem isBracket_closing (h : closing = "]" ∨ closing = "\x7d") :
    isQuiet closing = true ∧ isWord closing = true ∧ closing ≠ "," ∧ closing ≠ ";" ∧
      beginsWord closing = false ∧ isFirm closing = true := by
  rcases h with rfl | rfl <;> decide

theorem ReadsItems.nil (hreads : ReadsItems closing missing item step)
    (h : many step c = .ok ([], c')) : c.token.is closing = true ∧ c.next = .ok c' := by
  rcases (hreads _ _ _).mp (many_nil.mp h) with ⟨his, -, hnext⟩ | ⟨-, -, _, -, h, -⟩ |
    ⟨-, -, _, _, h, -⟩
  · exact ⟨his, hnext⟩
  · cases h
  · cases h

theorem ReadsItems.cons (hreads : ReadsItems closing missing item step) {x : α} {rest : List α}
    (h : many step c = .ok (x :: rest, c')) : c.token.is closing = false := by
  obtain ⟨m, hfirst, -⟩ := many_cons.mp h
  rcases (hreads _ _ _).mp hfirst with ⟨-, h, -⟩ | ⟨hnot, -⟩ | ⟨hnot, -⟩
  · cases h
  · exact hnot
  · exact hnot

theorem ItemsEcho.nil (hclosing : closing = "]" ∨ closing = "\x7d")
    (hreads : ReadsItems closing missing item step)
    (hprints : PrintsItems closing missing pieces printed)
    (h : many step c = .ok ([], c')) : ItemsEcho step relabel c (printed []) [] c' := by
  obtain ⟨hquiet, hword, hcomma, hsemi, -, -⟩ := isBracket_closing hclosing
  obtain ⟨his, hnext⟩ := hreads.nil h
  obtain ⟨ls, hls, hpieces⟩ := hprints.nil
  rw [hpieces]
  refine ⟨(Heads.sign his hcomma hsemi hnext .nil).layouts hls, fun drop rest hsits => ?_,
    fun w broken d d' hspells => ?_⟩
  · rw [List.append_assoc]
    exact (Piece.sits_layout hls).mpr ((Piece.sits_quiet hquiet).mpr hsits)
  · simp only [Wording.spells_append, Wording.spells_layout hls] at hspells
    obtain ⟨_, rfl, hspells⟩ := hspells
    obtain ⟨hd, -, m, hm, rfl⟩ := (Wording.spells_sign hword).mp hspells
    exact ⟨[], many_nil.mpr ((hreads _ _ _).mpr (.inl ⟨hd, rfl, hm⟩)), rfl⟩

theorem ItemsEcho.hole (hclosing : closing = "]" ∨ closing = "\x7d")
    (hreads : ReadsItems closing missing item step)
    (hprints : PrintsItems closing missing pieces printed) {m : Cursor} {x : α} {rest : List α}
    (hx : missing = some x) (hcopy : ∀ w, Copies relabel w x x) (his : c.token.is "," = true)
    (hnext : c.next = .ok m) (hecho : ItemsEcho step relabel m (printed rest) rest c') :
    ItemsEcho step relabel c (printed (x :: rest)) (x :: rest) c' := by
  obtain ⟨-, -, hcomma, -, -, -⟩ := isBracket_closing hclosing
  obtain ⟨ls, hls, hpieces⟩ := hprints.hole x rest hx
  rw [hpieces]
  refine ⟨.comma hls his hnext hecho.heads, fun drop more hsits => ?_,
    fun w broken d d' hspells => ?_⟩
  · refine (Piece.sits_quiet (by decide)).mpr ?_
    show Piece.Sits drop ((ls ++ printed rest) ++ more)
    rw [List.append_assoc, Piece.sits_layout hls]
    exact hecho.sits drop more hsits
  · obtain ⟨hd, -, m', hm', hspells'⟩ := (Wording.spells_sign (by decide)).mp hspells
    obtain ⟨m'', hlayout, hrest'⟩ := Wording.spells_append.mp hspells'
    obtain rfl := (Wording.spells_layout hls).mp hlayout
    obtain ⟨ys, hys, hcopies⟩ := hecho.again w _ m' d' hrest'
    refine ⟨x :: ys, many_cons.mpr ⟨m', (hreads _ _ _).mpr (.inr (.inl
      ⟨Token.is_unique hd hcomma.symm, hd, x, hx, rfl, hm'⟩)),
      Cursor.size_lt (Token.is_isEnd hd) hm', hys⟩, (hcopy w).cons hcopies⟩

theorem ItemsEcho.last (hclosing : closing = "]" ∨ closing = "\x7d")
    (hreads : ReadsItems closing missing item step)
    (hprints : PrintsItems closing missing pieces printed) {n m : Cursor} {x : α}
    (hx : missing ≠ some x) (hstart : c.token.is closing = false ∧
      (c.token.is "," = false ∨ missing = none)) (hitem : Echo item relabel c (pieces x) x n)
    (hend : Grammar.itemEnd closing n = .ok ((), m)) (hnil : many step m = .ok ([], c')) :
    ItemsEcho step relabel c (printed [x]) [x] c' := by
  obtain ⟨hquiet, hword, hcomma, -, hbegins, hfirm⟩ := isBracket_closing hclosing
  have hecho : ItemsEcho step relabel m (printed []) [] c' := .nil hclosing hreads hprints hnil
  obtain ⟨hclose, hnext⟩ := hreads.nil hnil
  obtain ⟨ls, hls, hpieces⟩ := hprints.last x hx
  obtain ⟨ls', hls', hpieces'⟩ := hprints.nil
  have htraces : Traces n (printed []) c' := by
    rcases itemEnd_eq_ok.mp hend with ⟨-, rfl⟩ | ⟨-, his, hnext'⟩
    · exact hecho.heads.traces
    · rw [hpieces']
      exact (Traces.trailing his hnext' hclosing hclose hnext .nil).layouts hls'
  rw [hpieces]
  refine ⟨((hitem.leads.heads hitem.opens).append htraces).layouts hls,
    fun drop more hsits => ?_, fun w broken d d' hspells => ?_⟩
  · rw [List.append_assoc, List.append_assoc, Piece.sits_layout hls]
    refine hitem.sits drop _ ?_ (hecho.sits drop more hsits)
    rw [hpieces', List.append_assoc]
    exact Piece.calm_layout hls' hbegins
  · simp only [Wording.spells_append, Wording.spells_layout hls] at hspells
    obtain ⟨_, rfl, d₁, hspells₁, hspells₂⟩ := hspells
    have hpeer := hitem.leads.peer hspells₁
    obtain ⟨ys, hys, hcopies⟩ := hecho.again w _ d₁ d' hspells₂
    have his : d₁.token.is closing = true := by
      simp only [hpieces', Wording.spells_append, Wording.spells_layout hls'] at hspells₂
      obtain ⟨_, rfl, hspells₃⟩ := hspells₂
      exact ((Wording.spells_sign hword).mp hspells₃).1
    have hstops : d₁.token.stops = true := by
      rcases hclosing with rfl | rfl <;> simp [Token.stops, his]
    obtain ⟨y, hy, hcopy⟩ := hitem.again w _ d d₁ hspells₁ (.inl hstops)
    refine ⟨y :: ys, many_cons.mpr ⟨d₁, (hreads _ _ _).mpr (.inr (.inr
      ⟨(hpeer.is_eq hfirm).symm.trans hstart.1, ?_, y, d₁, rfl, hy,
        itemEnd_eq_ok.mpr (.inl ⟨his, rfl⟩)⟩)), hitem.leads.size_lt hspells₁, hys⟩,
      hcopy.cons hcopies⟩
    exact hstart.2.imp_left fun hnot => (hpeer.is_eq (by decide)).symm.trans hnot

theorem ItemsEcho.cons (hclosing : closing = "]" ∨ closing = "\x7d")
    (hreads : ReadsItems closing missing item step)
    (hprints : PrintsItems closing missing pieces printed) {n m : Cursor} {x z : α} {rest : List α}
    (hx : missing ≠ some x) (hstart : c.token.is closing = false ∧
      (c.token.is "," = false ∨ missing = none)) (hitem : Echo item relabel c (pieces x) x n)
    (hend : Grammar.itemEnd closing n = .ok ((), m))
    (hrest : many step m = .ok (z :: rest, c'))
    (hecho : ItemsEcho step relabel m (printed (z :: rest)) (z :: rest) c') :
    ItemsEcho step relabel c (printed (x :: z :: rest)) (x :: z :: rest) c' := by
  obtain ⟨hquiet, hword, hcomma, -, hbegins, hfirm⟩ := isBracket_closing hclosing
  obtain ⟨ls, ls', hls, hls', hpieces⟩ := hprints.item x z rest hx
  have hopen := hreads.cons hrest
  obtain ⟨his, hnext⟩ : n.token.is "," = true ∧ n.next = .ok m := by
    rcases itemEnd_eq_ok.mp hend with ⟨hclose, rfl⟩ | ⟨-, his, hnext⟩
    · rw [hopen] at hclose
      cases hclose
    · exact ⟨his, hnext⟩
  rw [hpieces]
  refine ⟨((hitem.leads.heads hitem.opens).append
    (Heads.comma hls' his hnext hecho.heads).traces).layouts hls, fun drop more hsits => ?_,
    fun w broken d d' hspells => ?_⟩
  · rw [List.append_assoc, List.append_assoc, Piece.sits_layout hls]
    refine hitem.sits drop _ (Piece.calm_sign (by decide)) ((Piece.sits_quiet (by decide)).mpr ?_)
    show Piece.Sits drop ((ls' ++ printed (z :: rest)) ++ more)
    rw [List.append_assoc, Piece.sits_layout hls']
    exact hecho.sits drop more hsits
  · simp only [Wording.spells_append, Wording.spells_layout hls] at hspells
    obtain ⟨_, rfl, d₁, hspells₁, hspells₂⟩ := hspells
    have hpeer := hitem.leads.peer hspells₁
    obtain ⟨hd₁, -, d₂, hd₂, hspells₃⟩ := (Wording.spells_sign (by decide)).mp hspells₂
    obtain ⟨d₃, hlayout, hspells₄⟩ := Wording.spells_append.mp hspells₃
    obtain rfl := (Wording.spells_layout hls').mp hlayout
    obtain ⟨ys, hys, hcopies⟩ := hecho.again w _ d₂ d' hspells₄
    obtain ⟨y, hy, hcopy⟩ := hitem.again w _ d d₁ hspells₁ (.ofIs his hd₁ (by decide))
    refine ⟨y :: ys, many_cons.mpr ⟨d₂, (hreads _ _ _).mpr (.inr (.inr
      ⟨(hpeer.is_eq hfirm).symm.trans hstart.1, ?_, y, d₁, rfl, hy,
        itemEnd_eq_ok.mpr (.inr ⟨Token.is_unique hd₁ hcomma.symm, hd₁, hd₂⟩)⟩)),
      Nat.lt_trans (Cursor.size_lt (Token.is_isEnd hd₁) hd₂) (hitem.leads.size_lt hspells₁), hys⟩,
      hcopy.cons hcopies⟩
    exact hstart.2.imp_left fun hnot => (hpeer.is_eq (by decide)).symm.trans hnot

theorem ItemsEcho.many (hclosing : closing = "]" ∨ closing = "\x7d")
    (hreads : ReadsItems closing missing item step)
    (hprints : PrintsItems closing missing pieces printed)
    (hmissing : ∀ x ∈ missing, ∀ w, Copies relabel w x x)
    (hitem : ∀ c x m, item c = .ok (x, m) → missing ≠ some x ∧ Echo item relabel c (pieces x) x m)
    {xs : List α} (h : many step c = .ok (xs, c')) :
    ItemsEcho step relabel c (printed xs) xs c' := by
  induction xs generalizing c with
  | nil => exact .nil hclosing hreads hprints h
  | cons x rest ih =>
    obtain ⟨m, hfirst, -, hrest⟩ := many_cons.mp h
    have hecho := ih hrest
    rcases (hreads _ _ _).mp hfirst with ⟨-, heq, -⟩ | ⟨-, his, y, hy, heq, hnext⟩ |
      ⟨hnot, hcomma, y, n, heq, hy, hend⟩
    · cases heq
    · obtain rfl := Option.some.inj heq
      exact .hole hclosing hreads hprints hy (hmissing _ hy) his hnext hecho
    · obtain rfl := Option.some.inj heq
      obtain ⟨hx, hitem⟩ := hitem _ _ _ hy
      cases rest with
      | nil => exact .last hclosing hreads hprints hx ⟨hnot, hcomma⟩ hitem hend hrest
      | cons z rest => exact .cons hclosing hreads hprints hx ⟨hnot, hcomma⟩ hitem hend hrest hecho

end Items

/-! ### Arrays -/

theorem readsElements : ReadsItems "]" (some .hole) (.value <$> inner.assignment false)
    (Grammar.element inner) := by
  intro c x c'
  constructor
  · intro h
    obtain ⟨his, m, hnext, h⟩ | ⟨hnot, h⟩ := eat_bind_eq_ok.mp h
    · obtain ⟨rfl, rfl⟩ := pure_eq_ok.mp h
      exact .inl ⟨his, rfl, hnext⟩
    · obtain ⟨his, m, hnext, h⟩ | ⟨hnot', h⟩ := eat_bind_eq_ok.mp h
      · obtain ⟨rfl, rfl⟩ := pure_eq_ok.mp h
        exact .inr (.inl ⟨hnot, his, .hole, rfl, rfl, hnext⟩)
      · obtain ⟨e, m, he, h⟩ := bind_eq_ok.mp h
        obtain ⟨_, n, hend, h⟩ := bind_eq_ok.mp h
        obtain ⟨rfl, rfl⟩ := pure_eq_ok.mp h
        exact .inr (.inr ⟨hnot, .inl hnot', .value e, m, rfl, map_eq_ok.mpr ⟨e, he, rfl⟩, hend⟩)
  · rintro (⟨his, rfl, hnext⟩ | ⟨hnot, his, y, hy, rfl, hnext⟩ | ⟨hnot, hnot', y, m, rfl, hy, hend⟩)
    · exact eat_bind_eq_ok.mpr (.inl ⟨his, c', hnext, rfl⟩)
    · obtain rfl := Option.some.inj hy
      exact eat_bind_eq_ok.mpr (.inr ⟨hnot, eat_bind_eq_ok.mpr (.inl ⟨his, c', hnext, rfl⟩)⟩)
    · obtain ⟨e, he, rfl⟩ := map_eq_ok.mp hy
      have hnot' := hnot'.resolve_right (by simp)
      exact eat_bind_eq_ok.mpr (.inr ⟨hnot, eat_bind_eq_ok.mpr (.inr ⟨hnot',
        bind_eq_ok.mpr ⟨e, m, he, bind_eq_ok.mpr ⟨(), c', hend, rfl⟩⟩⟩)⟩)

theorem Echo.element (hinner : inner.Echoes) {x : Element}
    (h : (Element.value <$> inner.assignment false) c = .ok (x, c')) :
    some Element.hole ≠ some x ∧
      Echo (.value <$> inner.assignment false) Element.relabel c x.pieces x c' := by
  obtain ⟨e, he, rfl⟩ := map_eq_ok.mp h
  rw [map_eq_pure_bind]
  refine ⟨by simp, (hinner.assignment _ _ _ _ he).answer fun w y hcopy => ⟨.value y, fun _ => rfl, ?_⟩⟩
  exact congrArg Element.value hcopy

theorem printsElements : PrintsItems "]" (some .hole) Element.pieces
    (fun xs => elementsPieces xs ++ [.sign "]"]) := by
  refine ⟨⟨[], rfl, rfl⟩, fun y rest hy => ?_, fun y hy => ⟨[], rfl, ?_⟩,
    fun y z rest hy => ⟨[], [.space], rfl, rfl, ?_⟩⟩
  · obtain rfl : .hole = y := Option.some.inj hy
    cases rest with
    | nil => exact ⟨[], rfl, rfl⟩
    | cons z rest => exact ⟨[.space], rfl, rfl⟩
  · cases y with
    | hole => exact absurd rfl hy
    | value e => simp [elementsPieces, Piece.comma]
  · cases y with
    | hole => exact absurd rfl hy
    | value e => simp [elementsPieces, Piece.comma]

theorem ClosedEcho.array (hinner : inner.Echoes) {x : Expression}
    (his : c.token.is "[" = true) (h : Grammar.array inner c = .ok (x, c')) :
    ClosedEcho (Grammar.array inner) Expression.relabel c x.pieces x c' := by
  obtain ⟨m, hnext, h⟩ := advance_bind_eq_ok.mp h
  obtain ⟨elements, n, helements, h⟩ := bind_eq_ok.mp h
  obtain ⟨rfl, rfl⟩ := pure_eq_ok.mp h
  have hecho : ItemsEcho _ Element.relabel m (elementsPieces elements ++ [.sign "]"]) elements n :=
    .many (.inl rfl) readsElements printsElements
      (fun x hx w => by obtain rfl : .hole = x := Option.some.inj hx; rfl)
      (fun _ _ _ => Echo.element hinner) helements
  rw [Expression.pieces, List.cons_append]
  refine ⟨.mapped his (by decide) hnext hecho.heads.traces, fun w broken => pending_closing,
    fun drop rest hsits => ?_, fun w broken d d' hspells => ?_⟩
  · exact (Piece.sits_quiet (by decide)).mpr (hecho.sits drop rest hsits)
  · obtain ⟨hd, -, m', hm', hspells'⟩ := (Wording.spells_sign (by decide)).mp hspells
    obtain ⟨ys, hys, hcopy⟩ := hecho.again w _ m' d' hspells'
    refine ⟨_, advance_bind_eq_ok.mpr ⟨m', hm', bind_eq_ok.mpr ⟨ys, d', hys, rfl⟩⟩, ?_⟩
    simp only [Copies, Expression.relabel, relabelElements_eq]
    exact congrArg (Expression.array .start) hcopy

end EcmaPress

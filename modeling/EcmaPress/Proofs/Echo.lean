import EcmaPress.Proofs.Adjacency
import EcmaPress.Proofs.Spelling
import EcmaPress.Proofs.Steps
import EcmaPress.Tree.Relabel

/-!
# Runs of parsers and their echoes

A run of a parser that succeeds leaves a tree, and the tree has pieces. An echo says three things
of the run. The tokens that were read are those that the pieces come from. The pieces keep their
promises about tokens side by side. And whenever the pieces are spelled by another text, the
parser reads from it the same tree, up to places and to the wording of names.
-/

namespace EcmaPress

/-- The pieces come from the tokens between the cursors. -/
def Traces (c : Cursor) (ps : List Piece) (c' : Cursor) : Prop :=
  ∃ ts, c.Reads ts c' ∧ Aligned ts ps

/-- The pieces come from the tokens between the cursors, and the first piece comes from the first
token. -/
def Leads (c : Cursor) (ps : List Piece) (c' : Cursor) : Prop :=
  ∃ t m p qs, ps = p :: qs ∧ p.passes (fun _ => true) = true ∧ c.Takes t m ∧
    p.Fits .original t ∧ p.StandsFor t ∧ (t.text = "," → False) ∧ Traces m qs c'

/-- The first piece may stand behind an operator. -/
def Opens (ps : List Piece) : Prop :=
  ∃ p qs, ps = p :: qs ∧ p.passes beginsOperand = true

/-- The copy is the original up to places and to the wording of names. -/
def Copies {α : Type} (relabel : Relabeling → α → α) (w : Wording) (copy original : α) : Prop :=
  relabel (.unplaced Identifier.name) copy = relabel (.unplaced w.name) original

theorem Copies.cons {α : Type} {relabel : Relabeling → α → α} {w : Wording} {x y : α}
    {xs ys : List α} (h : Copies relabel w y x) (h' : Copies (fun r => List.map (relabel r)) w ys xs) :
    Copies (fun r => List.map (relabel r)) w (y :: ys) (x :: xs) := by
  simp only [Copies, List.map_cons] at h h' ⊢
  rw [h, h']

theorem Opens.append {ps : List Piece} (h : Opens ps) (qs : List Piece) : Opens (ps ++ qs) := by
  obtain ⟨p, rest, rfl, hp⟩ := h
  exact ⟨p, rest ++ qs, rfl, hp⟩

section Tracing

variable {c m c' : Cursor} {ps qs : List Piece}

theorem Traces.nil : Traces c [] c :=
  ⟨[], .done, .nil⟩

theorem Traces.append (h : Traces c ps m) (h' : Traces m qs c') : Traces c (ps ++ qs) c' := by
  obtain ⟨ts, hreads, haligned⟩ := h
  obtain ⟨us, hreads', haligned'⟩ := h'
  exact ⟨ts ++ us, hreads.append hreads', haligned.append haligned'⟩

theorem Traces.layout {p : Piece} (hp : p.isLayout = true) (h : Traces c ps c') :
    Traces c (p :: ps) c' := by
  obtain ⟨ts, hreads, haligned⟩ := h
  exact ⟨ts, hreads, .layout hp haligned⟩

theorem Traces.layouts {ls : List Piece} (hls : ls.all Piece.isLayout = true)
    (h : Traces c ps c') : Traces c (ls ++ ps) c' := by
  obtain ⟨ts, hreads, haligned⟩ := h
  exact ⟨ts, hreads, haligned.layouts hls⟩

theorem Traces.ofLayout {ls : List Piece} (hls : ls.all Piece.isLayout = true) :
    Traces c ls c := by
  simpa using Traces.layouts hls Traces.nil

theorem Leads.traces (h : Leads c ps c') : Traces c ps c' := by
  obtain ⟨t, m, p, qs, rfl, -, htake, hfits, hstands, hcomma, ts, hreads, haligned⟩ := h
  exact ⟨t :: ts, .more htake hreads, .written hfits hstands (fun heq => absurd heq hcomma) haligned⟩

theorem Leads.append (h : Leads c ps m) (h' : Traces m qs c') : Leads c (ps ++ qs) c' := by
  obtain ⟨t, n, p, rest, rfl, hp, htake, hfits, hstands, hcomma, hrest⟩ := h
  exact ⟨t, n, p, rest ++ qs, rfl, hp, htake, hfits, hstands, hcomma, hrest.append h'⟩

/-- A token that is no comma, written as it is. -/
theorem Leads.token {shape : Shape} {origin : Option Position} (hkind : c.token.kind ≠ .regex)
    (hend : c.token.isEnd = false) (hnext : c.next = .ok m) (hshape : shape ≠ .regex)
    (horigin : ∀ pos ∈ origin, c.token.pos = pos) (hcomma : c.token.text ≠ ",")
    (h : Traces m ps c') : Leads c (.token c.token.text origin shape :: ps) c' := by
  refine ⟨c.token, m, _, ps, rfl, rfl, .plain hkind hend hnext, ⟨rfl, ?_⟩, ?_, hcomma, h⟩
  · simp [Piece.Admits, hkind, hshape]
  · cases origin with
    | none => trivial
    | some pos => exact horigin pos rfl

/-- A sign or word, mapped to its place. -/
theorem Leads.mapped {s : String} (his : c.token.is s = true) (hs : s ≠ ",")
    (hnext : c.next = .ok m) (h : Traces m ps c') :
    Leads c (.mapped s c.token.pos :: ps) c' := by
  obtain ⟨-, rfl⟩ := Token.is_iff.mp his
  exact .token (Token.is_kind his) (Token.is_isEnd his) hnext (by decide) (by simp) hs h

/-- A sign or word without a place. -/
theorem Leads.sign {s : String} (his : c.token.is s = true) (hs : s ≠ ",")
    (hnext : c.next = .ok m) (h : Traces m ps c') : Leads c (.sign s :: ps) c' := by
  obtain ⟨-, rfl⟩ := Token.is_iff.mp his
  exact .token (Token.is_kind his) (Token.is_isEnd his) hnext (by decide) (by simp) hs h

theorem Leads.name (hid : c.token.isIdentifier = true) (hnext : c.next = .ok m)
    (h : Traces m ps c') : Leads c (.name ⟨c.token.text, c.token.pos⟩ :: ps) c' := by
  obtain ⟨hkind, hend⟩ := Token.isIdentifier_kind hid
  exact ⟨c.token, m, _, ps, rfl, rfl, .plain hkind hend hnext, ⟨rfl, hid⟩, rfl,
    Token.text_of_isIdentifier (Cursor.spelled hkind) hid (by decide), h⟩

theorem SameHead.layout {ts : List Token} {ls : List Piece} (hls : ls.all Piece.isLayout = true)
    (h : SameHead ts ps) : SameHead ts (ls ++ ps) := by
  obtain ⟨s, hs, ht, hp⟩ := h
  refine ⟨s, hs, ht, ?_⟩
  induction ls with
  | nil => exact hp
  | cons l ls ih =>
    rw [List.all_cons, Bool.and_eq_true] at hls
    rw [List.cons_append, Piece.texts_silent (Piece.text_layout hls.1 _)]
    exact ih hls.2

/-- Tokens and pieces that begin with the same text, which may stand behind a comma. -/
def Heads (c : Cursor) (ps : List Piece) (c' : Cursor) : Prop :=
  ∃ ts, c.Reads ts c' ∧ Aligned ts ps ∧ SameHead ts ps

theorem Heads.traces (h : Heads c ps c') : Traces c ps c' := by
  obtain ⟨ts, hreads, haligned, -⟩ := h
  exact ⟨ts, hreads, haligned⟩

theorem Heads.append (h : Heads c ps m) (h' : Traces m qs c') : Heads c (ps ++ qs) c' := by
  obtain ⟨ts, hreads, haligned, hhead⟩ := h
  obtain ⟨us, hreads', haligned'⟩ := h'
  exact ⟨ts ++ us, hreads.append hreads', haligned.append haligned', hhead.append⟩

theorem Heads.layouts {ls : List Piece} (hls : ls.all Piece.isLayout = true)
    (h : Heads c ps c') : Heads c (ls ++ ps) c' := by
  obtain ⟨ts, hreads, haligned, hhead⟩ := h
  exact ⟨ts, hreads, haligned.layouts hls, hhead.layout hls⟩

/-- What may begin like an operand may stand behind a comma. -/
theorem Leads.heads (h : Leads c ps c') (hopens : Opens ps) : Heads c ps c' := by
  obtain ⟨t, n, p, qs, rfl, -, htake, hfits, hstands, hcomma, ts, hreads, haligned⟩ := h
  obtain ⟨q, rest, heq, hopen⟩ := hopens
  obtain ⟨rfl, rfl⟩ := List.cons.inj heq
  refine ⟨t :: ts, .more htake hreads, .written hfits hstands (fun h => absurd h hcomma) haligned,
    t.text, ?_, rfl, by rw [Piece.texts_written hfits.1]; rfl⟩
  cases p with
  | token text origin shape =>
    obtain rfl : text = t.text := Option.some.inj hfits.1
    intro hsemi
    simp only [Piece.passes, hsemi] at hopen
    exact absurd hopen (by decide)
  | name id =>
    have hid : t.isIdentifier = true := hfits.2
    exact Token.text_of_isIdentifier (htake.spelled (Token.isIdentifier_kind hid).1) hid (by decide)
  | _ => cases hopen

/-- A sign that is no semicolon may stand behind a comma. -/
theorem Heads.sign {s : String} (his : c.token.is s = true) (hs : s ≠ ",") (hs' : s ≠ ";")
    (hnext : c.next = .ok m) (h : Traces m ps c') : Heads c (.sign s :: ps) c' := by
  obtain ⟨t, n, p, qs, heq, -, htake, hfits, hstands, hcomma, ts, hreads, haligned⟩ :=
    Leads.sign his hs hnext h
  obtain ⟨rfl, rfl⟩ := List.cons.inj heq
  have htext : s = t.text := Option.some.inj hfits.1
  exact ⟨t :: ts, .more htake hreads, .written hfits hstands (fun h => absurd h hcomma) haligned,
    s, hs', by rw [htext]; rfl, rfl⟩

/-- A comma before what may stand behind one. -/
theorem Heads.comma {ls : List Piece} (hls : ls.all Piece.isLayout = true)
    (his : c.token.is "," = true) (hnext : c.next = .ok m) (h : Heads m ps c') :
    Heads c (.sign "," :: (ls ++ ps)) c' := by
  obtain ⟨ts, hreads, haligned, hhead⟩ := h
  have htext := (Token.is_iff.mp his).2
  refine ⟨c.token :: ts, .more (.plain (Token.is_kind his) (Token.is_isEnd his) hnext) hreads,
    .written ⟨?_, ?_⟩ trivial (fun _ => hhead.layout hls) (haligned.layouts hls), ",", by decide, ?_, rfl⟩
  · rw [htext]
    rfl
  · simp [Piece.sign, Piece.Admits, Token.is_kind his]
  · rw [List.head?_cons, Option.map_some, htext]

/-- A comma behind the last item of a literal. -/
theorem Traces.trailing {n : Cursor} {closing : String} (his : c.token.is "," = true)
    (hnext : c.next = .ok m) (hclosing : closing = "]" ∨ closing = "\x7d")
    (his' : m.token.is closing = true) (hnext' : m.next = .ok n) (h : Traces n ps c') :
    Traces c (.sign closing :: ps) c' := by
  obtain ⟨ts, hreads, haligned⟩ := h
  have htext := (Token.is_iff.mp his').2
  have hclose : (m.token.is "]" || m.token.is "\x7d") = true := by
    rcases hclosing with rfl | rfl <;> simp [his']
  have hcomma : closing ≠ "," := by
    rcases hclosing with rfl | rfl <;> decide
  refine ⟨c.token :: m.token :: ts, .more (.plain (Token.is_kind his) (Token.is_isEnd his) hnext)
    (.more (.plain (Token.is_kind his') (Token.is_isEnd his') hnext') hreads),
    .trailing his hclose (.written ⟨by rw [htext]; rfl, ?_⟩ trivial (fun h => ?_) haligned)⟩
  · simp [Piece.sign, Piece.Admits, Token.is_kind his']
  · exact absurd (htext.symm.trans h) hcomma

/-- The first tokens of a text and of its copy. -/
theorem Leads.peer {w : Wording} {broken : Bool} {d d' : Cursor} (h : Leads c ps c')
    (h' : w.Spells broken ps d d') : c.token.Peer d.token := by
  obtain ⟨t, n, p, qs, rfl, hp, htake, hfits, -, -, -⟩ := h
  cases p with
  | token text origin shape =>
    obtain rfl : text = t.text := Option.some.inj hfits.1
    by_cases hshape : shape = .regex
    · subst hshape
      obtain ⟨r, m, hslash, -⟩ := Wording.spells_regex.mp h'
      have hkind : t.kind = .regex := hfits.2.mp rfl
      cases htake with
      | plain hplain => exact absurd hkind hplain
      | regex hslash' =>
        exact ⟨Cursor.spelled (Token.isSlash_text hslash').1, Cursor.spelled (Token.isSlash_text hslash).1,
          .inr (.inr ⟨hslash', hslash⟩)⟩
    · obtain ⟨htext, hkind, -⟩ := (Wording.spells_token hshape).mp h'
      have hplain : t.kind ≠ .regex := fun h => hshape (hfits.2.mpr h)
      cases htake with
      | plain hkind' => exact ⟨Cursor.spelled hkind', Cursor.spelled hkind, .inl htext.symm⟩
      | regex _ hr =>
        obtain ⟨n, -, htoken, -⟩ := Cursor.asRegex_eq_ok.mp hr
        exact absurd (by rw [htoken]; rfl) hplain
  | name id =>
    obtain ⟨hid, -⟩ := Wording.spells_name.mp h'
    have hid' : t.isIdentifier = true := hfits.2
    cases htake with
    | plain hkind' =>
      exact ⟨Cursor.spelled hkind', Cursor.spelled (Token.isIdentifier_kind hid).1,
        .inr (.inl ⟨hid', hid⟩)⟩
    | regex _ hr =>
      obtain ⟨n, -, htoken, -⟩ := Cursor.asRegex_eq_ok.mp hr
      exact absurd (by rw [htoken]; rfl) (Token.isIdentifier_kind hid').1
  | _ => cases hp

theorem Leads.size_lt {w : Wording} {broken : Bool} {d d' : Cursor} (h : Leads c ps c')
    (h' : w.Spells broken ps d d') : d'.input.size < d.input.size := by
  obtain ⟨t, n, p, qs, rfl, hp, -, -, -, -, -⟩ := h
  have htext : ∃ s, p.text w = some s := by
    cases p with
    | token text => exact ⟨text, rfl⟩
    | name id => exact ⟨w.name id, rfl⟩
    | _ => cases hp
  obtain ⟨s, hs⟩ := htext
  obtain ⟨u, m, htake, -, -, -, hrest⟩ := (Wording.spells_written hs).mp h'
  exact Nat.lt_of_le_of_lt hrest.size_le htake.size_lt

/-- Pieces that begin with a sign or word before which an operator may stand. -/
theorem Leads.opens {s : String} (h : Leads c ps c') (his : c.token.is s = true)
    (hs : beginsOperand s = true ∧ isFirm s = true) : Opens ps := by
  obtain ⟨t, n, p, qs, rfl, hp, htake, hfits, -, -, -⟩ := h
  refine ⟨p, qs, rfl, ?_⟩
  cases htake with
  | plain =>
    cases p with
    | token text origin shape =>
      obtain rfl : text = c.token.text := Option.some.inj hfits.1
      rw [Piece.passes, (Token.is_iff.mp his).2]
      exact hs.1
    | name id => rfl
    | _ => cases hp
  | regex hslash =>
    rw [Token.is_of_isSlash hslash hs.2] at his
    cases his

/-- No line ends before the first token of a copy unless the layout allows it. -/
theorem Leads.newlineBefore {w : Wording} {broken : Bool} {d d' : Cursor} (h : Leads c ps c')
    (h' : w.Spells broken ps d d') (hline : d.token.newlineBefore = true) : broken = true := by
  obtain ⟨t, n, p, qs, rfl, hp, -, -, -, -, -⟩ := h
  cases p with
  | token text origin shape =>
    obtain ⟨u, m, htake, -, -, hbroken, -⟩ := (Wording.spells_written rfl).mp h'
    cases htake with
    | plain => exact hbroken hline rfl
    | regex _ hr =>
      obtain ⟨n, -, htoken, -⟩ := Cursor.asRegex_eq_ok.mp hr
      exact hbroken (by rw [htoken]; exact hline) rfl
  | name id => exact (Wording.spells_name.mp h').2.2.1 hline
  | _ => cases hp

end Tracing

/-! ### Echoes -/

/-- The run of a parser from `c` to `c'` that answers `x`, and the pieces of `x`. -/
structure Echo {α : Type} (parser : Parser α) (relabel : Relabeling → α → α) (c : Cursor)
    (ps : List Piece) (x : α) (c' : Cursor) : Prop where
  leads : Leads c ps c'
  opens : Opens ps
  firm : ∀ w : Wording, ∀ broken, w.pending broken ps = false
  sits : ∀ drop rest, Piece.Calm drop rest → Piece.Sits drop rest → Piece.Sits drop (ps ++ rest)
  again : ∀ (w : Wording) broken d d', w.Spells broken ps d d' →
    c'.token.FollowsExpression d'.token → ∃ y, parser d = .ok (y, d') ∧ Copies relabel w y x

/-- A parser that only makes something else of what another one answers. -/
theorem Echo.answer {α β : Type} {parser : Parser α} {relabel : Relabeling → α → α}
    {relabel' : Relabeling → β → β} {c c' : Cursor} {ps : List Piece} {x : α} {z : β}
    {g : α → Parser β} (h : Echo parser relabel c ps x c')
    (hg : ∀ w y, Copies relabel w y x → ∃ z', (∀ d, g y d = .ok (z', d)) ∧ Copies relabel' w z' z) :
    Echo (parser >>= g) relabel' c ps z c' := by
  refine ⟨h.leads, h.opens, h.firm, h.sits, fun w broken d d' hspells hfollow => ?_⟩
  obtain ⟨y, hy, hcopy⟩ := h.again w broken d d' hspells hfollow
  obtain ⟨z', hz, hcopy'⟩ := hg w y hcopy
  exact ⟨z', Parser.bind_eq_ok.mpr ⟨y, d', hy, hz d'⟩, hcopy'⟩

/-- An echo of a construct that ends by a token of its own, whatever stands behind it. -/
structure ClosedEcho {α : Type} (parser : Parser α) (relabel : Relabeling → α → α) (c : Cursor)
    (ps : List Piece) (x : α) (c' : Cursor) : Prop where
  leads : Leads c ps c'
  firm : ∀ w : Wording, ∀ broken, w.pending broken ps = false
  sits : ∀ drop rest, Piece.Sits drop rest → Piece.Sits drop (ps ++ rest)
  again : ∀ (w : Wording) broken d d', w.Spells broken ps d d' →
    ∃ y, parser d = .ok (y, d') ∧ Copies relabel w y x

theorem ClosedEcho.echo {α : Type} {parser : Parser α} {relabel : Relabeling → α → α}
    {c c' : Cursor} {ps : List Piece} {x : α} (h : ClosedEcho parser relabel c ps x c')
    (hopens : Opens ps) : Echo parser relabel c ps x c' :=
  ⟨h.leads, hopens, h.firm, fun drop rest _ => h.sits drop rest,
    fun w broken d d' hspells _ => h.again w broken d d' hspells⟩

/-- The run of the parser of a statement. Whether its semicolon may be dropped depends on where
the statement stands. -/
structure StatementEcho (parser : Parser Statement) (c : Cursor) (last : Bool) (s : Statement)
    (c' : Cursor) : Prop where
  leads : Leads c (s.pieces last) c'
  sits : ∀ drop rest, ((last && drop) = true → Piece.Closes drop rest) → Piece.Sits drop rest →
    Piece.Sits drop (s.pieces last ++ rest)
  again : ∀ (w : Wording) broken d d', w.Spells broken (s.pieces last) d d' →
    c'.token.FollowsStatement (last && w.drop) d'.token →
    ∃ y, parser d = .ok (y, d') ∧ Copies Statement.relabel w y s

/-- The parsers of a level leave echoes. -/
structure Inner.Echoes (inner : Inner) : Prop where
  statement : ∀ c s c', inner.statement c = .ok (s, c') →
    ∀ last, StatementEcho inner.statement c last s c'
  assignment : ∀ noIn c x c', inner.assignment noIn c = .ok (x, c') →
    Echo (inner.assignment noIn) Expression.relabel c x.pieces x c'
  unary : ∀ c x c', inner.unary c = .ok (x, c') →
    Echo inner.unary Expression.relabel c x.pieces x c'
  newExpression : ∀ c x c', c.token.is "new" = true → inner.newExpression c = .ok (x, c') →
    Echo inner.newExpression Expression.relabel c x.pieces x c'

section Separated

open EcmaPress.Parser

variable {α : Type} {item : Parser α} {pieces : α → List Piece} {relabel : Relabeling → α → α}

/-- The pieces of items with a comma before each. -/
def commasPieces (pieces : α → List Piece) : List α → List Piece
  | [] => []
  | x :: rest => .sign "," :: .space :: pieces x ++ commasPieces pieces rest

theorem another_some {c c' : Cursor} {x : α} :
    another item c = .ok (some x, c') ↔
      c.token.is "," = true ∧ ∃ m, c.next = .ok m ∧ item m = .ok (x, c') :=
  ifEat_eq_some

theorem another_none {c c' : Cursor} :
    another item c = .ok (none, c') ↔ c.token.is "," = false ∧ c = c' :=
  ifEat_eq_none

/-- The items behind the first one of a list, each with the comma before it. -/
structure EchoOthers (item : Parser α) (pieces : α → List Piece)
    (relabel : Relabeling → α → α) (c : Cursor) (xs : List α) (c' : Cursor) : Prop where
  traces : Traces c (commasPieces pieces xs) c'
  firm : ∀ w : Wording, w.pending false (commasPieces pieces xs) = false
  sits : ∀ drop rest, Piece.Calm drop rest → Piece.Sits drop rest →
    Piece.Calm drop (commasPieces pieces xs ++ rest) ∧
      Piece.Sits drop (commasPieces pieces xs ++ rest)
  again : ∀ (w : Wording) broken d d', w.Spells broken (commasPieces pieces xs) d d' →
    c'.token.FollowsExpression d'.token → c.token.FollowsExpression d.token ∧
      ∃ ys, many (another item) d = .ok (ys, d') ∧ Copies (fun r => List.map (relabel r)) w ys xs

theorem EchoOthers.ofMany {c c' : Cursor} {xs : List α}
    (hitem : ∀ c x c', item c = .ok (x, c') → Echo item relabel c (pieces x) x c')
    (h : many (another item) c = .ok (xs, c')) : EchoOthers item pieces relabel c xs c' := by
  induction xs generalizing c with
  | nil =>
    obtain ⟨hcomma, rfl⟩ := another_none.mp (many_nil.mp h)
    refine ⟨.nil, fun _ => rfl, fun _ _ hcalm hsits => ⟨hcalm, hsits⟩, ?_⟩
    rintro w broken d d' rfl hfollow
    have hnot := hfollow.is_eq_false hcomma (by decide)
    exact ⟨hfollow, [], many_nil.mpr (another_none.mpr ⟨hnot, rfl⟩), rfl⟩
  | cons x xs ih =>
    obtain ⟨m, hfirst, -, hrest⟩ := many_cons.mp h
    obtain ⟨hcomma, m₁, hnext, hx⟩ := another_some.mp hfirst
    have hecho := hitem _ _ _ hx
    have hothers := ih hrest
    refine ⟨?_, fun w => ?_, fun drop rest hcalm hsits => ?_, ?_⟩
    · have hspace : [Piece.space].all Piece.isLayout = true := rfl
      have hhead := Heads.comma hspace hcomma hnext (hecho.leads.heads hecho.opens)
      exact hhead.traces.append hothers.traces
    · exact (Wording.pending_append ..).trans (hecho.firm w _ ▸ hothers.firm w)
    · obtain ⟨hcalm', hsits'⟩ := hothers.sits drop rest hcalm hsits
      refine ⟨Piece.calm_sign (by decide), (Piece.sits_quiet (by decide)).mpr ?_⟩
      simpa [Piece.Sits] using hecho.sits drop _ hcalm' hsits'
    · intro w broken d d' hspells hfollow
      obtain ⟨hcomma', -, m', hnext', h⟩ := (Wording.spells_sign (by decide)).mp hspells
      obtain ⟨n, hx', htail⟩ := Wording.spells_append.mp (Wording.spells_space.mp h)
      obtain ⟨hfollow', ys, hmany, hcopies⟩ := hothers.again w _ n d' htail hfollow
      obtain ⟨y, hy, hcopy⟩ := hecho.again w _ m' n hx' hfollow'
      have hsize : n.input.size < d.input.size :=
        Nat.lt_of_le_of_lt hx'.size_le (Cursor.size_lt (Token.is_isEnd hcomma') hnext')
      refine ⟨.ofIs hcomma hcomma' (by decide), y :: ys, many_cons.mpr
        ⟨n, another_some.mpr ⟨hcomma', m', hnext', hy⟩, hsize, hmany⟩, ?_⟩
      exact hcopy.cons hcopies

/-- The pieces of items with commas between them. -/
def separatedPieces (pieces : α → List Piece) : List α → List Piece
  | [] => []
  | x :: rest => pieces x ++ commasPieces pieces rest

theorem Echo.separated {c c' : Cursor} {xs : List α}
    (hitem : ∀ c x c', item c = .ok (x, c') → Echo item relabel c (pieces x) x c')
    (h : separated item c = .ok (xs, c')) :
    Echo (separated item) (fun r => List.map (relabel r)) c (separatedPieces pieces xs) xs c' := by
  obtain ⟨x, m, hx, h⟩ := bind_eq_ok.mp h
  obtain ⟨rest, n, hmany, h⟩ := bind_eq_ok.mp h
  obtain ⟨rfl, rfl⟩ := pure_eq_ok.mp h
  have hecho := hitem _ _ _ hx
  have hothers := EchoOthers.ofMany hitem hmany
  refine ⟨hecho.leads.append hothers.traces, hecho.opens.append _, fun w broken => ?_,
    fun drop rest hcalm hsits => ?_, fun w broken d d' hspells hfollow => ?_⟩
  · exact (Wording.pending_append ..).trans (hecho.firm w _ ▸ hothers.firm w)
  · obtain ⟨hcalm', hsits'⟩ := hothers.sits drop rest hcalm hsits
    simpa [separatedPieces] using hecho.sits drop _ hcalm' hsits'
  · obtain ⟨n, hfirst, htail⟩ := Wording.spells_append.mp hspells
    obtain ⟨hfollow', ys, hmany', hcopies⟩ := hothers.again w _ n d' htail hfollow
    obtain ⟨y, hy, hcopy⟩ := hecho.again w _ d n hfirst hfollow'
    exact ⟨y :: ys, bind_eq_ok.mpr ⟨y, n, hy, bind_eq_ok.mpr ⟨ys, d', hmany',
      pure_eq_ok.mpr ⟨rfl, rfl⟩⟩⟩, hcopy.cons hcopies⟩

/-- The pieces of a list that is printed item by item with commas between. -/
theorem separatedPieces_eq {printed : List α → List Piece} (hnil : printed [] = [])
    (hcons : ∀ x rest, printed (x :: rest) =
      pieces x ++ Piece.comma rest.isEmpty ++ printed rest) (xs : List α) :
    printed xs = separatedPieces pieces xs := by
  have hcommas : ∀ rest : List α,
      Piece.comma rest.isEmpty ++ printed rest = commasPieces pieces rest := by
    intro rest
    induction rest with
    | nil => rw [hnil]; rfl
    | cons x rest ih => rw [hcons, List.append_assoc, ih]; rfl
  cases xs with
  | nil => exact hnil
  | cons x rest => rw [hcons, List.append_assoc, hcommas]; rfl

end Separated

/-! ### Identifiers -/

theorem ClosedEcho.identifier {c c' : Cursor} {id : Identifier}
    (h : Parser.identifier c = .ok (id, c')) :
    ClosedEcho Parser.identifier Relabeling.identifier c [.name id] id c' := by
  obtain ⟨hid, rfl, hnext⟩ := Parser.identifier_eq_ok.mp h
  refine ⟨.name hid hnext .nil, fun _ _ => rfl, fun drop rest hsits => hsits,
    fun w broken d d' hspells => ?_⟩
  obtain ⟨hid', htext, -, m, hnext', rfl⟩ := Wording.spells_name.mp hspells
  refine ⟨_, Parser.identifier_eq_ok.mpr ⟨hid', rfl, hnext'⟩, ?_⟩
  simp [Copies, Relabeling.identifier, Relabeling.unplaced, htext]

theorem Echo.identifier {c c' : Cursor} {id : Identifier} (h : Parser.identifier c = .ok (id, c')) :
    Echo Parser.identifier Relabeling.identifier c [.name id] id c' :=
  (ClosedEcho.identifier h).echo ⟨_, _, rfl, rfl⟩

end EcmaPress

import EcmaPress.Grammar.Program
import EcmaPress.Proofs.Alignment

/-!
# Reading pieces back

A text spells pieces if its tokens, read one after the other, are those that the pieces write, and
if no line ends before a token but where the pieces have a line end. This is all that a parser
must know of a printed text to read the tree again. Also here: how the token behind a construct
in the printed text may differ from the one behind it in the source.
-/

namespace EcmaPress

/-- The semicolon of a statement, before which a line may end anywhere. -/
def Piece.isTerminator : Piece → Bool
  | .terminator _ => true
  | _ => false

/-- The tokens from the first cursor to the second one are those that the pieces write. The flag
tells whether a line may end before the first of them. -/
def Wording.Spells (w : Wording) : Bool → List Piece → Cursor → Cursor → Prop
  | _, [], d, d' => d = d'
  | broken, p :: ps, d, d' =>
    match p.text w with
    | none => w.Spells (broken || p == .newline) ps d d'
    | some s => ∃ t m, d.Takes t m ∧ t.text = s ∧ p.Admits t ∧
        (t.newlineBefore = true → p.isTerminator = false → broken = true) ∧ w.Spells false ps m d'

namespace Wording

variable {w : Wording} {broken : Bool} {p : Piece} {ps qs : List Piece} {d d' : Cursor}

@[simp] theorem spells_nil : w.Spells broken [] d d' ↔ d = d' := Iff.rfl

theorem spells_silent (h : p.text w = none) :
    w.Spells broken (p :: ps) d d' ↔ w.Spells (broken || p == .newline) ps d d' := by
  simp [Spells, h]

theorem spells_written {s : String} (h : p.text w = some s) :
    w.Spells broken (p :: ps) d d' ↔ ∃ t m, d.Takes t m ∧ t.text = s ∧ p.Admits t ∧
      (t.newlineBefore = true → p.isTerminator = false → broken = true) ∧
        w.Spells false ps m d' := by
  simp [Spells, h]

@[simp] theorem spells_space :
    w.Spells broken (.space :: ps) d d' ↔ w.Spells broken ps d d' := by
  rw [spells_silent rfl, show (Piece.space == Piece.newline) = false from rfl, Bool.or_false]

@[simp] theorem spells_newline :
    w.Spells broken (.newline :: ps) d d' ↔ w.Spells true ps d d' := by
  rw [spells_silent rfl, show (Piece.newline == Piece.newline) = true from rfl, Bool.or_true]

@[simp] theorem spells_indent :
    w.Spells broken (.indent :: ps) d d' ↔ w.Spells broken ps d d' := by
  rw [spells_silent rfl, show (Piece.indent == Piece.newline) = false from rfl, Bool.or_false]

@[simp] theorem spells_dedent :
    w.Spells broken (.dedent :: ps) d d' ↔ w.Spells broken ps d d' := by
  rw [spells_silent rfl, show (Piece.dedent == Piece.newline) = false from rfl, Bool.or_false]

/-- Whether a line may end behind pieces, if one may end before them. -/
def pending (w : Wording) : Bool → List Piece → Bool
  | broken, [] => broken
  | broken, p :: ps =>
    match p.text w with
    | none => w.pending (broken || p == .newline) ps
    | some _ => w.pending false ps

theorem pending_append (broken : Bool) (ps qs : List Piece) :
    w.pending broken (ps ++ qs) = w.pending (w.pending broken ps) qs := by
  induction ps generalizing broken with
  | nil => rfl
  | cons p ps ih =>
    simp only [List.cons_append, pending]
    split <;> exact ih _

/-- Pieces behind each other are spelled one after the other. -/
theorem spells_append : w.Spells broken (ps ++ qs) d d' ↔
    ∃ m, w.Spells broken ps d m ∧ w.Spells (w.pending broken ps) qs m d' := by
  induction ps generalizing broken d with
  | nil => simp [pending]
  | cons p ps ih =>
    rw [List.cons_append]
    cases ht : p.text w with
    | none => simp only [spells_silent ht, ih, pending, ht]
    | some s =>
      simp only [spells_written ht, ih, pending, ht]
      constructor
      · rintro ⟨t, m, htake, htext, hadmits, hbroken, m', hps, hqs⟩
        exact ⟨m', ⟨t, m, htake, htext, hadmits, hbroken, hps⟩, hqs⟩
      · rintro ⟨m', ⟨t, m, htake, htext, hadmits, hbroken, hps⟩, hqs⟩
        exact ⟨t, m, htake, htext, hadmits, hbroken, m', hps, hqs⟩

/-- Layout is no text. -/
theorem spells_layout {ls : List Piece} (h : ls.all Piece.isLayout = true) :
    w.Spells broken ls d d' ↔ d = d' := by
  induction ls generalizing broken with
  | nil => rfl
  | cons p ls ih =>
    rw [List.all_cons, Bool.and_eq_true] at h
    rw [spells_silent (Piece.text_layout h.1 w), ih h.2]

theorem Spells.size_le (h : w.Spells broken ps d d') : d'.input.size ≤ d.input.size := by
  induction ps generalizing broken d with
  | nil =>
    obtain rfl : d = d' := h
    exact Nat.le_refl _
  | cons p ps ih =>
    cases ht : p.text w with
    | none => exact ih ((spells_silent ht).mp h)
    | some s =>
      obtain ⟨t, m, htake, -, -, -, hrest⟩ := (spells_written ht).mp h
      exact Nat.le_of_lt (Nat.lt_of_le_of_lt (ih hrest) htake.size_lt)

/-- Spelled pieces are read as the texts that they write. -/
theorem Spells.reads (h : w.Spells broken ps d d') :
    ∃ ts, d.Reads ts d' ∧ ts.map Token.text = Piece.texts w ps := by
  induction ps generalizing broken d with
  | nil =>
    obtain rfl : d = d' := h
    exact ⟨[], .done, rfl⟩
  | cons p ps ih =>
    cases htext : p.text w with
    | none =>
      obtain ⟨ts, hreads, htexts⟩ := ih ((spells_silent htext).mp h)
      exact ⟨ts, hreads, by rw [htexts, Piece.texts_silent htext]⟩
    | some s =>
      obtain ⟨t, m, htakes, rfl, -, -, hrest⟩ := (spells_written htext).mp h
      obtain ⟨ts, hreads, htexts⟩ := ih hrest
      exact ⟨t :: ts, .more htakes hreads, by rw [List.map_cons, htexts, Piece.texts_written htext]⟩

end Wording

/-! ### Signs and words -/

/-- Whether a text is a sign or a word. -/
def isWord (text : String) : Bool :=
  match Token.kindOf text with
  | some .name | some .punct => true
  | _ => false

/-- Whether a text is a sign or a reserved word, and cannot be taken for anything else. -/
def isFirm (text : String) : Bool :=
  match Token.kindOf text with
  | some .name => isReserved text
  | some .punct => text != "/" && text != "/="
  | _ => false

theorem Cursor.spelled {c : Cursor} (h : c.token.kind ≠ .regex) : c.token.Spelled :=
  c.stands.spelled_scan h

theorem Cursor.Takes.spelled {c m : Cursor} {t : Token} (h : c.Takes t m)
    (hkind : t.kind ≠ .regex) : t.Spelled := by
  cases h with
  | plain => exact c.stands.spelled_scan hkind
  | @regex r => exact r.stands.spelled_scan hkind

namespace Token

theorem is_iff {t : Token} {s : String} :
    t.is s = true ↔ (t.kind = .punct ∨ t.kind = .name) ∧ t.text = s := by
  simp [Token.is]

theorem Spelled.is {t : Token} (h : t.Spelled) {s : String} (htext : t.text = s)
    (hs : isWord s = true) : t.is s = true := by
  subst htext
  rw [isWord, h.kindOf] at hs
  refine is_iff.mpr ⟨?_, rfl⟩
  split at hs
  · next hkind => exact .inr (Option.some.inj hkind)
  · next hkind => exact .inl (Option.some.inj hkind)
  · cases hs

theorem isIdentifier_iff {t : Token} :
    t.isIdentifier = true ↔ t.kind = .name ∧ isReserved t.text = false := by
  simp [Token.isIdentifier]

theorem isIdentifier_kind {t : Token} (h : t.isIdentifier = true) :
    t.kind ≠ .regex ∧ t.isEnd = false := by
  have hkind := (isIdentifier_iff.mp h).1
  simp [Token.isEnd, hkind]

theorem is_unique {t : Token} {s s' : String} (h : t.is s = true) (hs : s ≠ s') :
    t.is s' = false := by
  rw [Bool.eq_false_iff]
  intro h'
  exact hs ((is_iff.mp h).2.symm.trans (is_iff.mp h').2)

theorem is_kind {t : Token} {s : String} (h : t.is s = true) : t.kind ≠ .regex := by
  rcases (is_iff.mp h).1 with hk | hk <;> simp [hk]

theorem is_isEnd {t : Token} {s : String} (h : t.is s = true) : t.isEnd = false := by
  rcases (is_iff.mp h).1 with hk | hk <;> simp [Token.isEnd, hk]

/-- Tokens that a text and its copy may have at the beginning of one construct. -/
structure Peer (t u : Token) : Prop where
  left : t.Spelled
  right : u.Spelled
  alike : t.text = u.text ∨ t.isIdentifier = true ∧ u.isIdentifier = true ∨
    t.isSlash = true ∧ u.isSlash = true

/-- An identifier is not spelled like a sign. -/
theorem text_of_isIdentifier {t : Token} (ht : t.Spelled) (hid : t.isIdentifier = true)
    {s : String} (hs : kindOf s ≠ some .name) : t.text ≠ s := by
  rintro rfl
  rw [ht.kindOf, (isIdentifier_iff.mp hid).1] at hs
  exact hs rfl

theorem is_of_isIdentifier {t : Token} (ht : t.Spelled) (hid : t.isIdentifier = true) {s : String}
    (hs : isFirm s = true) : t.is s = false := by
  obtain ⟨hkind, hreserved⟩ := isIdentifier_iff.mp hid
  rw [Bool.eq_false_iff]
  intro his
  obtain rfl := (is_iff.mp his).2
  simp [isFirm, ht.kindOf, hkind, hreserved] at hs

theorem is_of_isSlash {t : Token} (hslash : t.isSlash = true) {s : String}
    (hs : isFirm s = true) : t.is s = false := by
  rw [Bool.eq_false_iff]
  intro his
  obtain rfl := (is_iff.mp his).2
  simp only [isSlash, Bool.or_eq_true, is_iff] at hslash
  rcases hslash with ⟨-, htext⟩ | ⟨-, htext⟩ <;> rw [htext] at hs <;> exact absurd hs (by decide)

theorem isSlash_text {t : Token} (h : t.isSlash = true) :
    t.kind ≠ .regex ∧ (t.text = "/" ∨ t.text = "/=") := by
  simp only [isSlash, Bool.or_eq_true] at h
  rcases h with h | h
  · exact ⟨is_kind h, .inl (is_iff.mp h).2⟩
  · exact ⟨is_kind h, .inr (is_iff.mp h).2⟩

theorem Spelled.slash_kind {t : Token} (h : t.Spelled) (hslash : t.isSlash = true) :
    t.kind = .punct := by
  have hkind := h.kindOf
  rcases (isSlash_text hslash).2 with htext | htext <;> rw [htext] at hkind
  · exact Option.some.inj (hkind.symm.trans (by decide : Token.kindOf "/" = some .punct))
  · exact Option.some.inj (hkind.symm.trans (by decide : Token.kindOf "/=" = some .punct))

theorem Spelled.isSlash_of_isIdentifier {t : Token} (h : t.Spelled)
    (hid : t.isIdentifier = true) : t.isSlash = false := by
  rw [Bool.eq_false_iff]
  intro hslash
  have hkind := h.slash_kind hslash
  rw [(isIdentifier_iff.mp hid).1] at hkind
  cases hkind

theorem Peer.kind {t u : Token} (h : t.Peer u) : t.kind = u.kind := by
  rcases h.alike with htext | ⟨ht, hu⟩ | ⟨ht, hu⟩
  · exact h.left.kind_congr h.right htext
  · rw [(isIdentifier_iff.mp ht).1, (isIdentifier_iff.mp hu).1]
  · rw [h.left.slash_kind ht, h.right.slash_kind hu]

theorem Peer.isIdentifier {t u : Token} (h : t.Peer u) (hid : t.isIdentifier = true) :
    u.isIdentifier = true := by
  rcases h.alike with htext | ⟨-, hu⟩ | ⟨hslash, -⟩
  · rw [Token.isIdentifier, ← h.kind, ← htext]
    exact hid
  · exact hu
  · rw [h.left.isSlash_of_isIdentifier hid] at hslash
    cases hslash

theorem Peer.isSlash {t u : Token} (h : t.Peer u) (hslash : t.isSlash = true) :
    u.isSlash = true := by
  rcases h.alike with htext | ⟨hid, -⟩ | ⟨-, hu⟩
  · simp only [Token.isSlash, Token.is, ← h.kind, ← htext]
    exact hslash
  · rw [h.left.isSlash_of_isIdentifier hid] at hslash
    cases hslash
  · exact hu

theorem Peer.ofIs {c d : Cursor} {s : String} (hc : c.token.is s = true)
    (hd : d.token.is s = true) : c.token.Peer d.token :=
  ⟨Cursor.spelled (is_kind hc), Cursor.spelled (is_kind hd),
    .inl ((is_iff.mp hc).2.trans (is_iff.mp hd).2.symm)⟩

theorem Peer.ofEnd {c d : Cursor} (hc : c.token.isEnd = true) (hd : d.token.isEnd = true) :
    c.token.Peer d.token := by
  have hspelled : ∀ e : Cursor, e.token.isEnd = true → e.token.Spelled ∧ e.token.text = "" := by
    intro e he
    have hkind : e.token.kind = .endOfText := by simpa [isEnd] using he
    have hspelled := Cursor.spelled (c := e) (by simp [hkind])
    refine ⟨hspelled, String.toList_injective ?_⟩
    rw [Spelled, hkind] at hspelled
    exact Lexeme.scan_end hspelled
  exact ⟨(hspelled c hc).1, (hspelled d hd).1, .inl ((hspelled c hc).2.trans (hspelled d hd).2.symm)⟩

/-- Peers cannot be told apart by signs and reserved words. -/
theorem Peer.is_eq {t u : Token} (h : t.Peer u) {s : String} (hs : isFirm s = true) :
    t.is s = u.is s := by
  rcases h.alike with htext | ⟨ht, hu⟩ | ⟨ht, hu⟩
  · simp only [Token.is, h.kind, htext]
  · rw [is_of_isIdentifier h.left ht hs, is_of_isIdentifier h.right hu hs]
  · rw [is_of_isSlash ht hs, is_of_isSlash hu hs]

/-- Peers of signs and reserved words are spelled alike. -/
theorem Peer.text_eq {t u : Token} (h : t.Peer u) (hfirm : isFirm t.text = true)
    (hkind : t.kind = .name ∨ t.kind = .punct) : t.text = u.text := by
  have his : t.is t.text = true := is_iff.mpr ⟨hkind.symm, rfl⟩
  rw [h.is_eq hfirm] at his
  exact (is_iff.mp his).2.symm

end Token

namespace Wording

variable {w : Wording} {broken : Bool} {ps : List Piece} {d d' : Cursor}

/-! ### Single pieces -/

theorem spells_token {s : String} {origin : Option Position} {shape : Shape}
    (hshape : shape ≠ .regex) :
    w.Spells broken (.token s origin shape :: ps) d d' ↔
      d.token.text = s ∧ d.token.kind ≠ .regex ∧ d.token.isEnd = false ∧
        (d.token.newlineBefore = true → broken = true) ∧
        ∃ m, d.next = .ok m ∧ w.Spells false ps m d' := by
  rw [spells_written rfl]
  constructor
  · rintro ⟨t, m, htake, htext, hadmits, hbroken, hrest⟩
    cases htake with
    | plain hkind hend hnext =>
      exact ⟨htext, hkind, hend, fun hline => hbroken hline rfl, m, hnext, hrest⟩
    | regex _ hr _ =>
      obtain ⟨n, -, htoken, -⟩ := Cursor.asRegex_eq_ok.mp hr
      exact absurd (hadmits.mpr (by rw [htoken]; rfl)) hshape
  · rintro ⟨htext, hkind, hend, hbroken, m, hnext, hrest⟩
    exact ⟨d.token, m, .plain hkind hend hnext, htext, by simp [Piece.Admits, hkind, hshape],
      fun hline _ => hbroken hline, hrest⟩

theorem spells_sign {s : String} {origin : Option Position} (hs : isWord s = true) :
    w.Spells broken (.token s origin .plain :: ps) d d' ↔
      d.token.is s = true ∧ (d.token.newlineBefore = true → broken = true) ∧
        ∃ m, d.next = .ok m ∧ w.Spells false ps m d' := by
  rw [spells_token (by decide)]
  constructor
  · rintro ⟨htext, hkind, -, hrest⟩
    exact ⟨(Cursor.spelled hkind).is htext hs, hrest⟩
  · rintro ⟨his, hrest⟩
    exact ⟨(Token.is_iff.mp his).2, Token.is_kind his, Token.is_isEnd his, hrest⟩

theorem spells_name {id : Identifier} :
    w.Spells broken (.name id :: ps) d d' ↔
      d.token.isIdentifier = true ∧ d.token.text = w.name id ∧
        (d.token.newlineBefore = true → broken = true) ∧
        ∃ m, d.next = .ok m ∧ w.Spells false ps m d' := by
  rw [spells_written rfl]
  constructor
  · rintro ⟨t, m, htake, htext, hadmits, hbroken, hrest⟩
    cases htake with
    | plain _ _ hnext => exact ⟨hadmits, htext, fun hline => hbroken hline rfl, m, hnext, hrest⟩
    | regex _ hr _ =>
      obtain ⟨n, -, htoken, -⟩ := Cursor.asRegex_eq_ok.mp hr
      have hkind := (Token.isIdentifier_iff.mp hadmits).1
      rw [htoken] at hkind
      cases hkind
  · rintro ⟨hid, htext, hbroken, m, hnext, hrest⟩
    have hkind := (Token.isIdentifier_iff.mp hid).1
    exact ⟨d.token, m, .plain (by simp [hkind]) (by simp [Token.isEnd, hkind]) hnext, htext, hid,
      fun hline _ => hbroken hline, hrest⟩

theorem spells_regex {s : String} {origin : Option Position} :
    w.Spells broken (.token s origin .regex :: ps) d d' ↔
      ∃ r m, d.token.isSlash = true ∧ d.asRegex = .ok r ∧ r.token.text = s ∧
        (r.token.newlineBefore = true → broken = true) ∧ r.next = .ok m ∧
        w.Spells false ps m d' := by
  rw [spells_written rfl]
  constructor
  · rintro ⟨t, m, htake, htext, hadmits, hbroken, hrest⟩
    cases htake with
    | plain hkind _ _ => exact absurd (hadmits.mp rfl) hkind
    | regex hslash hr hnext =>
      exact ⟨_, m, hslash, hr, htext, fun hline => hbroken hline rfl, hnext, hrest⟩
  · rintro ⟨r, m, hslash, hr, htext, hbroken, hnext, hrest⟩
    obtain ⟨n, -, htoken, -⟩ := Cursor.asRegex_eq_ok.mp hr
    exact ⟨r.token, m, .regex hslash hr hnext, htext, by simp [Piece.Admits, htoken, Input.tokenOf],
      fun hline _ => hbroken hline, hrest⟩

/-- The semicolon of a statement is written, or it is dropped. -/
theorem spells_terminator {last : Bool} :
    w.Spells broken (.terminator last :: ps) d d' ↔
      if last = true ∧ w.drop = true then w.Spells broken ps d d'
      else d.token.is ";" = true ∧ ∃ m, d.next = .ok m ∧ w.Spells false ps m d' := by
  split
  · next h =>
    have hsilent : (Piece.terminator last).text w = none :=
      Piece.text_terminator_eq_none.mpr (by simp [h])
    rw [spells_silent hsilent,
      show (Piece.terminator last == Piece.newline) = false from rfl, Bool.or_false]
  · next h =>
    have hwritten : (Piece.terminator last).text w = some ";" :=
      Piece.text_terminator_eq_some.mpr ⟨by simpa using h, rfl⟩
    rw [spells_written hwritten]
    constructor
    · rintro ⟨t, m, htake, htext, hadmits, -, hrest⟩
      cases htake with
      | plain hkind _ hnext => exact ⟨(Cursor.spelled hkind).is htext (by decide), m, hnext, hrest⟩
      | regex _ hr _ =>
        obtain ⟨n, -, htoken, -⟩ := Cursor.asRegex_eq_ok.mp hr
        exact absurd (by rw [htoken]; rfl) hadmits
    · rintro ⟨his, m, hnext, hrest⟩
      have hkind := Token.is_kind his
      exact ⟨d.token, m, .plain hkind (Token.is_isEnd his) hnext, (Token.is_iff.mp his).2, hkind,
        (fun _ hother => by cases hother), hrest⟩

end Wording

/-! ### What stands behind a construct -/

namespace Token

/-- Whether a token is of the kind and spelling of another one. -/
def Same (t u : Token) : Prop :=
  t.kind = u.kind ∧ t.text = u.text

/-- Whether a token ends every expression. -/
def stops (t : Token) : Bool :=
  t.is ";" || t.is "\x7d" || t.is "]" || t.is ")" || t.isEnd

/-- Whether a token ends every list of statements. -/
def closesBody (t : Token) : Bool :=
  t.is "\x7d" || t.isEnd

/-- The token behind an expression in the source, and the one behind its copy: either the copy is
ended by a token that ends every expression, or both go on in the same way. -/
def FollowsExpression (t u : Token) : Prop :=
  u.stops = true ∨
    t.Same u ∧ (t.updateOperator?.isSome = true → t.newlineBefore = u.newlineBefore)

/-- The words that may go on with a statement that might as well end before them. -/
def onwardWords : List String := ["else", "finally"]

/-- Both tokens go on with a statement in the same way, or neither does. -/
def Parallel (t u : Token) : Prop :=
  ∀ s ∈ onwardWords, t.is s = u.is s

/-- The token behind a statement in the source, and the one behind its copy, which ends a list if
the last semicolon of the list has been dropped. -/
structure FollowsStatement (dropped : Bool) (t u : Token) : Prop where
  parallel : t.Parallel u
  closes : dropped = true → u.closesBody = true

/-- The token behind a list in the source, and the one behind its copy, which ends the list around
if the last semicolon of the list has been dropped. -/
structure FollowsLines (dropped : Bool) (t u : Token) : Prop where
  peer : t.Peer u
  closes : dropped = true → u.closesBody = true

theorem Peer.parallel {t u : Token} (h : t.Peer u) : t.Parallel u :=
  fun s hs => h.is_eq ((by decide : ∀ s ∈ onwardWords, isFirm s = true) s hs)

theorem Same.is_eq {t u : Token} (h : t.Same u) (s : String) : t.is s = u.is s := by
  rw [Token.is, Token.is, h.1, h.2]

theorem Same.ofIs {c d : Cursor} {s : String} (hc : c.token.is s = true)
    (hd : d.token.is s = true) : c.token.Same d.token := by
  have htext := (is_iff.mp hc).2.trans (is_iff.mp hd).2.symm
  exact ⟨(Cursor.spelled (is_kind hc)).kind_congr (Cursor.spelled (is_kind hd)) htext, htext⟩

theorem updateOperator?_ofIs {t : Token} {s : String} (h : t.is s = true)
    (hs : UpdateOperator.ofSymbol? s = none) : t.updateOperator? = none := by
  unfold updateOperator?
  rw [(is_iff.mp h).2, hs, ite_self]

/-- The same sign or word stands behind both. -/
theorem FollowsExpression.ofIs {c d : Cursor} {s : String} (hc : c.token.is s = true)
    (hd : d.token.is s = true) (hs : UpdateOperator.ofSymbol? s = none) :
    c.token.FollowsExpression d.token := by
  refine .inr ⟨.ofIs hc hd, fun hop => ?_⟩
  rw [updateOperator?_ofIs hc hs] at hop
  cases hop

theorem stops_is {t : Token} (h : t.stops = true) {s : String}
    (hs : s ∉ [";", "\x7d", "]", ")"]) : t.is s = false := by
  rw [Bool.eq_false_iff]
  intro his
  have hend := is_isEnd his
  obtain ⟨-, rfl⟩ := is_iff.mp his
  simp only [stops, Bool.or_eq_true, hend, is_iff] at h
  simp only [List.mem_cons, List.not_mem_nil, not_or, or_false] at hs
  rcases h with (((h | h) | h) | h) | h
  · exact hs.1 h.2
  · exact hs.2.1 h.2
  · exact hs.2.2.1 h.2
  · exact hs.2.2.2 h.2
  · cases h

/-- A sign or word that does not stand behind an expression stands behind no copy of it. -/
theorem FollowsExpression.is_eq_false {t u : Token} (h : t.FollowsExpression u) {s : String}
    (ht : t.is s = false) (hs : s ∉ [";", "\x7d", "]", ")"]) : u.is s = false := by
  rcases h with hstop | ⟨hsame, -⟩
  · exact stops_is hstop hs
  · rw [← hsame.is_eq, ht]

end Token
end EcmaPress

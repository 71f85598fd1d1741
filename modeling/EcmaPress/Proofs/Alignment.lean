import EcmaPress.Layout.Printed
import EcmaPress.Proofs.Reading

/-!
# Pieces and the tokens that they come from

The tokens that a parser has read, and the pieces of the tree that it made of them, are the same
texts in the same order, up to the semicolons that end statements and up to commas behind the last
item of a literal. `Aligned` states this token by token, with the places and kinds of the tokens,
and in such a way that two alignments can be put behind each other.
-/

namespace EcmaPress

/-- How pieces are worded: the spelling of names, and whether the last semicolon of a list is
dropped. -/
structure Wording where
  name : Identifier → String
  drop : Bool

namespace Wording

/-- Names as they are, and all semicolons. -/
def original : Wording :=
  ⟨Identifier.name, false⟩

/-- The wording of a style. -/
def ofStyle (style : Style) (renames : Renames) : Wording :=
  ⟨fun id => renames[id.pos.offset]?.getD id.name, style.dropSemicolons⟩

end Wording

namespace Piece

/-- What a piece writes, if it is a token. -/
def text (w : Wording) : Piece → Option String
  | .token text _ _ => some text
  | .name id => some (w.name id)
  | .terminator last => if last && w.drop then none else some ";"
  | .space | .newline | .indent | .dedent => none

/-- The texts that pieces write. -/
def texts (w : Wording) (pieces : List Piece) : List String :=
  pieces.filterMap (text w)

/-- A space, a line end or a change of the indentation. -/
def isLayout : Piece → Bool
  | .space | .newline | .indent | .dedent => true
  | .token .. | .name _ | .terminator _ => false

/-- Whether a token may stand for a piece, its spelling apart. -/
def Admits (token : Token) : Piece → Prop
  | .token _ _ shape => shape = .regex ↔ token.kind = .regex
  | .name _ => token.isIdentifier = true
  | .terminator _ => token.kind ≠ .regex
  | .space | .newline | .indent | .dedent => False

/-- A token stands for a piece in some wording. -/
def Fits (w : Wording) (token : Token) (piece : Piece) : Prop :=
  piece.text w = some token.text ∧ piece.Admits token

/-- A token stands where a piece comes from, as far as the piece knows that. -/
def StandsFor (token : Token) : Piece → Prop
  | .token _ (some pos) _ => token.pos = pos
  | .name id => token.pos = id.pos
  | _ => True

theorem texts_append (w : Wording) (ps qs : List Piece) :
    texts w (ps ++ qs) = texts w ps ++ texts w qs :=
  List.filterMap_append

theorem texts_silent {w : Wording} {p : Piece} (h : p.text w = none) (ps : List Piece) :
    texts w (p :: ps) = texts w ps :=
  List.filterMap_cons_none h

theorem texts_written {w : Wording} {p : Piece} {s : String} (h : p.text w = some s)
    (ps : List Piece) : texts w (p :: ps) = s :: texts w ps :=
  List.filterMap_cons_some h

theorem text_layout {p : Piece} (h : p.isLayout = true) (w : Wording) : p.text w = none := by
  cases p <;> first | rfl | simp [isLayout] at h

theorem texts_layout {ls : List Piece} (h : ls.all isLayout = true) (w : Wording) :
    texts w ls = [] :=
  List.filterMap_eq_nil_iff.mpr fun _ hp => text_layout (List.all_eq_true.mp h _ hp) w

/-- The semicolon of a statement is silent just where it is the last one and such are dropped. -/
theorem text_terminator_eq_none {w : Wording} {last : Bool} :
    (terminator last).text w = none ↔ (last && w.drop) = true := by
  simp [text]

theorem text_terminator_eq_some {w : Wording} {last : Bool} {s : String} :
    (terminator last).text w = some s ↔ (last && w.drop) = false ∧ ";" = s := by
  simp [text]

/-- Another wording with the same names writes the same texts, but for dropped semicolons. -/
theorem text_of_original {w : Wording} (hname : ∀ id, w.name id = id.name) {p : Piece}
    {s : String} (h : p.text .original = some s) :
    p.text w = some s ∨ p.text w = none ∧ s = ";" := by
  cases p with
  | name id => exact .inl (by rw [← h, text, hname]; rfl)
  | terminator last =>
    obtain ⟨-, rfl⟩ := text_terminator_eq_some.mp h
    simp only [text]
    split
    · exact .inr ⟨rfl, trivial⟩
    · exact .inl rfl
  | _ => exact .inl h

theorem texts_head {w : Wording} (hname : ∀ id, w.name id = id.name) {ps : List Piece}
    {s : String} (hs : s ≠ ";") (h : (texts .original ps).head? = some s) :
    (texts w ps).head? = some s := by
  induction ps with
  | nil => simp [texts] at h
  | cons p ps ih =>
    cases ht : p.text .original with
    | none =>
      have hw : p.text w = none := by
        cases p <;> first | rfl | simp [text, Wording.original] at ht
      rw [texts_silent ht] at h
      rw [texts_silent hw, ih h]
    | some s' =>
      rw [texts_written ht] at h
      obtain rfl : s' = s := by simpa using h
      rcases text_of_original hname ht with hw | ⟨-, rfl⟩
      · rw [texts_written hw]
        rfl
      · exact absurd rfl hs

end Piece

/-- Tokens and pieces go on with the same text, which is no semicolon. -/
def SameHead (ts : List Token) (ps : List Piece) : Prop :=
  ∃ s, s ≠ ";" ∧ ts.head?.map Token.text = some s ∧ (Piece.texts .original ps).head? = some s

/-- The tokens are those that the pieces come from. -/
inductive Aligned : List Token → List Piece → Prop
  | nil : Aligned [] []
  | written {t : Token} {ts : List Token} {p : Piece} {ps : List Piece} :
    p.Fits .original t → p.StandsFor t → (t.text = "," → SameHead ts ps) → Aligned ts ps →
    Aligned (t :: ts) (p :: ps)
  | layout {ts : List Token} {p : Piece} {ps : List Piece} : p.isLayout = true → Aligned ts ps →
    Aligned ts (p :: ps)
  /-- A semicolon that the text leaves out. -/
  | inserted {ts : List Token} {last : Bool} {ps : List Piece} : Aligned ts ps →
    Aligned ts (.terminator last :: ps)
  /-- A comma behind the last item of a literal. -/
  | trailing {t u : Token} {ts : List Token} {ps : List Piece} : t.is "," = true →
    (u.is "]" || u.is "\x7d") = true → Aligned (u :: ts) ps → Aligned (t :: u :: ts) ps

theorem SameHead.append {ts us : List Token} {ps qs : List Piece} (h : SameHead ts ps) :
    SameHead (ts ++ us) (ps ++ qs) := by
  obtain ⟨s, hs, ht, hp⟩ := h
  refine ⟨s, hs, ?_, ?_⟩
  · rw [List.head?_append, Option.map_or, ht, Option.some_or]
  · rw [Piece.texts_append, List.head?_append, hp, Option.some_or]

theorem Aligned.append {ts us : List Token} {ps qs : List Piece} (h : Aligned ts ps)
    (h' : Aligned us qs) : Aligned (ts ++ us) (ps ++ qs) := by
  induction h with
  | nil => exact h'
  | written hfits hstands hcomma _ ih =>
    exact .written hfits hstands (fun heq => (hcomma heq).append) ih
  | layout hp _ ih => exact .layout hp ih
  | inserted _ ih => exact .inserted ih
  | trailing hcomma hclose _ ih => exact .trailing hcomma hclose ih

/-- Tokens of which no piece is left are none. -/
theorem Aligned.nil_right {ts : List Token} (h : Aligned ts []) : ts = [] := by
  generalize hps : [] = ps at h
  induction h with
  | nil => rfl
  | written | layout | inserted => cases hps
  | trailing _ _ _ ih => cases ih hps

theorem Aligned.layouts {ts : List Token} {ps ls : List Piece}
    (hls : ls.all Piece.isLayout = true) (h : Aligned ts ps) : Aligned ts (ls ++ ps) := by
  induction ls with
  | nil => exact h
  | cons p ls ih =>
    rw [List.all_cons, Bool.and_eq_true] at hls
    exact .layout hls.1 (ih hls.2)

/-! ### Essential tokens -/

/-- Whether a text closes a literal or a block. -/
def closes (text : String) : Bool :=
  text == "]" || text == "\x7d"

/-- Token texts without the semicolons and without the commas that stand directly before a
closing bracket or brace. -/
def essential : List String → List String
  | [] => []
  | text :: rest =>
    if text == ";" || (text == "," && rest.head?.any closes) then essential rest
    else text :: essential rest

theorem essential_semicolon (rest : List String) : essential (";" :: rest) = essential rest := by
  simp [essential]

theorem essential_cons {text : String} {xs ys : List String} (h : essential xs = essential ys)
    (hcomma : text = "," → xs.head?.any closes = ys.head?.any closes) :
    essential (text :: xs) = essential (text :: ys) := by
  by_cases hc : text = ","
  · simp only [essential, hcomma hc, h]
  · simp [essential, hc, h]

theorem Aligned.essential_eq {ts : List Token} {ps : List Piece} (h : Aligned ts ps)
    {w : Wording} (hname : ∀ id, w.name id = id.name) :
    essential (ts.map Token.text) = essential (Piece.texts w ps) := by
  induction h with
  | nil => rfl
  | @written t ts p ps hfits hstands hcomma _ ih =>
    rw [List.map_cons]
    rcases Piece.text_of_original hname hfits.1 with hw | ⟨hw, hsemi⟩
    · rw [Piece.texts_written hw]
      refine essential_cons ih fun hc => ?_
      obtain ⟨s, hs, ht, hp⟩ := hcomma hc
      rw [List.head?_map, ht, Piece.texts_head hname hs hp]
    · rw [Piece.texts_silent hw, hsemi, essential_semicolon, ih]
  | layout hp _ ih => rw [Piece.texts_silent (Piece.text_layout hp w), ih]
  | @inserted ts last ps _ ih =>
    rw [ih]
    cases hw : (Piece.terminator last).text w with
    | none => rw [Piece.texts_silent hw]
    | some s =>
      obtain ⟨-, rfl⟩ := Piece.text_terminator_eq_some.mp hw
      rw [Piece.texts_written hw, essential_semicolon]
  | @trailing t u ts ps hcomma hclose _ ih =>
    rw [← ih, List.map_cons]
    have ht : t.text = "," := by simp_all [Token.is]
    have hu : closes u.text = true := by
      simp only [Token.is, Bool.or_eq_true, Bool.and_eq_true] at hclose
      rcases hclose with ⟨-, hu⟩ | ⟨-, hu⟩ <;> simp [closes, hu]
    simp only [ht, List.map_cons, essential, List.head?_cons, Option.any_some, hu]
    rfl

end EcmaPress

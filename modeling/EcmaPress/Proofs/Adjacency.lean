import EcmaPress.Proofs.Alignment

/-!
# Tokens side by side

What pieces promise about the token that follows each of their tokens: an operator is followed by
an operand and not by another operator that would make a longer sign with it; a point is followed
by a name; a number that ends in a point is followed by no word but the operators `in` and
`instanceof`, and these have a space before them; and a key of digits is not followed by a point. The promises are stated for pieces together with whatever
stands behind them, so that they can be joined without looking for last tokens.
-/

namespace EcmaPress

/-- Whether a sign is the beginning of a longer one. -/
def isOperator (text : String) : Bool :=
  punctuators.any fun sign =>
    text.toList.isPrefixOf sign.toList && decide (text.length < sign.length)

/-- Whether an operand may begin like this. No sign can be made longer by such a text, but for a
plus or a minus that is doubled. -/
def beginsOperand (text : String) : Bool :=
  text.toList.head?.any fun c => !(['=', '<', '>', '&', '|', ';'].contains c)

/-- Whether a text begins with a character of words. -/
def beginsWord (text : String) : Bool :=
  text.toList.head?.any Page.isWordChar

/-- Whether a text is a number that ends in a point. -/
def endsInPoint (text : String) : Bool :=
  text.toList.getLast? == some '.' && text != "."

/-- Whether a text is made of digits only. -/
def isDigits (text : String) : Bool :=
  text != "" && text.toList.all Char.isDigit

/-- Whether a text makes no demand on the token behind it. -/
def isQuiet (text : String) : Bool :=
  !isOperator text && text != "." && !endsInPoint text && !isDigits text

namespace Piece

/-- Whether a test holds for the text of a piece. Names pass it. -/
def passes (test : String → Bool) : Piece → Bool
  | .token text _ _ => test text
  | .name _ => true
  | _ => false

/-- The next piece that writes something, and whether a space or a line end stands before it. The
flag tells whether one has been seen already. -/
def ahead (drop : Bool) : Bool → List Piece → Option (Bool × Piece)
  | _, [] => none
  | _, .space :: ps | _, .newline :: ps => ahead drop true ps
  | spaced, .indent :: ps | spaced, .dedent :: ps => ahead drop spaced ps
  | spaced, .terminator last :: ps =>
    if last && drop then ahead drop spaced ps else some (spaced, .terminator last)
  | spaced, .token text origin shape :: _ => some (spaced, .token text origin shape)
  | spaced, .name id :: _ => some (spaced, .name id)

/-- Whether a piece is an operator that is a word and stands between operands. -/
def isRelation : Piece → Bool
  | .token text _ _ => text == "in" || text == "instanceof"
  | _ => false

/-- Whether what stands ahead is no word, or a word between operands with a space before it. -/
def isCalm (next : Option (Bool × Piece)) : Bool :=
  next.all fun q => !q.2.passes beginsWord || (q.1 && q.2.isRelation)

/-- What a piece demands of the next one. -/
structure Link (text : String) (shape : Shape) (next : Option (Bool × Piece)) : Prop where
  operand : isOperator text = true → next.any (·.2.passes beginsOperand) = true
  member : text = "." → next.any (·.2.passes fun s => !s.toList.head?.any Char.isDigit) = true
  word : endsInPoint text = true → isCalm next = true
  point : isDigits text = true → shape = .plain →
    next.any (·.2.passes fun s => s.toList.head? == some '.') = false

/-- Every token is followed by what it demands. -/
def Sits (drop : Bool) : List Piece → Prop
  | [] => True
  | .token text _ shape :: ps => Link text shape (ahead drop false ps) ∧ Sits drop ps
  | _ :: ps => Sits drop ps

/-- What stands ahead is no word that might run into a number. -/
def Calm (drop : Bool) (ps : List Piece) : Prop :=
  isCalm (ahead drop false ps) = true

/-- What stands ahead, if anything, is the brace that closes a block. -/
def Closes (drop : Bool) (ps : List Piece) : Prop :=
  ∀ spaced, ∀ q ∈ ahead drop spaced ps, q.2 = .sign "\x7d"

theorem closes_layout {drop : Bool} {ls : List Piece} (h : ls.all isLayout = true)
    {ps : List Piece} (hps : Closes drop ps) : Closes drop (ls ++ ps) := by
  induction ls with
  | nil => exact hps
  | cons p ls ih =>
    rw [List.all_cons, Bool.and_eq_true] at h
    intro spaced q hq
    cases p with
    | space | newline => exact ih h.2 true q hq
    | indent | dedent => exact ih h.2 spaced q hq
    | _ => cases h.1

theorem sits_layout {drop : Bool} {ls : List Piece} (h : ls.all isLayout = true)
    {ps : List Piece} : Sits drop (ls ++ ps) ↔ Sits drop ps := by
  induction ls with
  | nil => rfl
  | cons p ls ih =>
    rw [List.all_cons, Bool.and_eq_true] at h
    cases p with
    | token | name | terminator => cases h.1
    | _ => exact ih h.2

theorem sits_space {drop : Bool} {ps : List Piece} :
    Sits drop (.space :: ps) ↔ Sits drop ps :=
  Iff.rfl

theorem sits_newline {drop : Bool} {ps : List Piece} :
    Sits drop (.newline :: ps) ↔ Sits drop ps :=
  Iff.rfl

theorem Closes.calm {drop : Bool} {ps : List Piece} (h : Closes drop ps) : Calm drop ps := by
  unfold Calm
  cases hahead : ahead drop false ps with
  | none => rfl
  | some q =>
    have hq := h false q hahead
    simp [isCalm, hq, sign, passes, show beginsWord "\x7d" = false by decide]

theorem link_quiet {text : String} (h : isQuiet text = true) (shape : Shape)
    (next : Option (Bool × Piece)) : Link text shape next := by
  simp only [isQuiet, Bool.and_eq_true, Bool.not_eq_true', bne_iff_ne] at h
  obtain ⟨⟨⟨hop, hpoint⟩, hends⟩, hdigits⟩ := h
  constructor <;> simp [*]

theorem sits_quiet {drop : Bool} {text : String} (h : isQuiet text = true)
    {origin : Option Position} {shape : Shape} {ps : List Piece} :
    Sits drop (.token text origin shape :: ps) ↔ Sits drop ps :=
  ⟨And.right, fun hps => ⟨link_quiet h _ _, hps⟩⟩

theorem calm_sign {drop : Bool} {text : String} (h : beginsWord text = false)
    {origin : Option Position} {shape : Shape} {ps : List Piece} :
    Calm drop (.token text origin shape :: ps) := by
  simp [Calm, isCalm, ahead, passes, h]

theorem ahead_layout (drop : Bool) {ls : List Piece} (h : ls.all isLayout = true) (spaced : Bool)
    (ps : List Piece) : ∃ spaced', ahead drop spaced (ls ++ ps) = ahead drop spaced' ps := by
  induction ls generalizing spaced with
  | nil => exact ⟨spaced, rfl⟩
  | cons p ls ih =>
    rw [List.all_cons, Bool.and_eq_true] at h
    cases p with
    | space | newline => exact ih h.2 true
    | indent | dedent => exact ih h.2 spaced
    | _ => cases h.1

theorem calm_layout {drop : Bool} {ls : List Piece} (h : ls.all isLayout = true) {text : String}
    (hword : beginsWord text = false) {origin : Option Position} {shape : Shape}
    {ps : List Piece} : Calm drop (ls ++ .token text origin shape :: ps) := by
  obtain ⟨spaced, hahead⟩ := ahead_layout drop h false (.token text origin shape :: ps)
  simp [Calm, isCalm, hahead, ahead, passes, hword]

theorem calm_spaced {drop : Bool} {text : String}
    (hword : beginsWord text = true → text = "in" ∨ text = "instanceof")
    {origin : Option Position} {shape : Shape} {ps : List Piece} :
    Calm drop (.space :: .token text origin shape :: ps) := by
  cases hbegins : beginsWord text with
  | false => simp [Calm, isCalm, ahead, passes, hbegins]
  | true => rcases hword hbegins with rfl | rfl <;> rfl

/-- An operator before an operand. -/
theorem sits_operator {drop : Bool} {text : String} (hpoint : text ≠ ".")
    (hends : endsInPoint text = false) (hdigits : isDigits text = false)
    {origin : Option Position} {ps : List Piece}
    (hnext : (ahead drop false ps).any (·.2.passes beginsOperand) = true) :
    Sits drop (.token text origin .plain :: ps) ↔ Sits drop ps := by
  refine ⟨And.right, fun hps => ⟨⟨fun _ => hnext, fun h => absurd h hpoint, ?_, ?_⟩, hps⟩⟩
  · simp [hends]
  · simp [hdigits]

end Piece

/-! ### Tokens by their kind -/

/-- A text that begins like a longer sign is a sign. -/
theorem kindOf_of_isOperator {text : String} (h : isOperator text = true) :
    Token.kindOf text = some .punct ∨ Token.kindOf text = some .endOfText := by
  have hall : ∀ sign ∈ punctuators, ∀ n < sign.length,
      Token.kindOf (String.ofList (sign.toList.take n)) = some .punct ∨
        Token.kindOf (String.ofList (sign.toList.take n)) = some .endOfText := by
    decide
  simp only [isOperator, List.any_eq_true, Bool.and_eq_true, List.isPrefixOf_iff_prefix,
    decide_eq_true_eq] at h
  obtain ⟨sign, hmem, hpre, hlen⟩ := h
  have htake : String.ofList (sign.toList.take text.length) = text := by
    rw [← String.length_toList, ← List.prefix_iff_eq_take.mp hpre, String.ofList_toList]
  rw [← htake]
  exact hall sign hmem text.length hlen

namespace Token

variable {t : Token}

theorem Spelled.isOperator (h : t.Spelled) (hkind : t.kind ≠ .punct) (hend : t.isEnd = false) :
    isOperator t.text = false := by
  rw [Bool.eq_false_iff]
  intro hop
  rcases kindOf_of_isOperator hop with hk | hk <;> rw [h.kindOf] at hk
  · exact hkind (Option.some.inj hk)
  · simp [Token.isEnd, Option.some.inj hk] at hend

theorem Spelled.cons (h : t.Spelled) (hend : t.isEnd = false) :
    ∃ c rest, t.text.toList = c :: rest := by
  cases htext : t.text.toList with
  | nil =>
    rw [Spelled, htext] at h
    simp [Lexeme.scan] at h
    simp [Token.isEnd, ← h.1] at hend
  | cons c rest => exact ⟨c, rest, rfl⟩

theorem Spelled.beginsOperand (h : t.Spelled) (hkind : t.kind ≠ .punct)
    (hend : t.isEnd = false) : beginsOperand t.text = true := by
  obtain ⟨c, rest, htext⟩ := h.cons hend
  rw [Spelled, htext] at h
  rw [EcmaPress.beginsOperand, htext, List.head?_cons, Option.any_some, Bool.not_eq_true']
  rw [Bool.eq_false_iff]
  intro hc
  refine hkind (Lexeme.scan_sign h ?_ ?_ ?_)
  all_goals
    simp only [List.contains_cons, List.contains_nil, Bool.or_false, Bool.or_eq_true,
      beq_iff_eq] at hc
    rcases hc with rfl | rfl | rfl | rfl | rfl | rfl <;> decide

theorem Spelled.isDigits (h : t.Spelled) (hkind : t.kind ≠ .number) :
    isDigits t.text = false := by
  rw [Bool.eq_false_iff]
  intro hdigits
  simp only [EcmaPress.isDigits, Bool.and_eq_true, bne_iff_ne] at hdigits
  obtain ⟨hne, hall⟩ := hdigits
  cases htext : t.text.toList with
  | nil => exact hne (String.toList_injective (by rw [htext]; rfl))
  | cons c rest =>
    rw [Spelled, htext] at h
    rw [htext, List.all_cons, Bool.and_eq_true] at hall
    exact hkind (Lexeme.scan_digit h hall.1)

end Token

/-- A token that is no sign, with its own spelling. -/
theorem Piece.sits_spelled {t : Token} (h : t.Spelled) (hkind : t.kind ≠ .punct)
    (hend : t.isEnd = false) {drop : Bool} {origin : Option Position} {shape : Shape}
    {ps : List Piece} (hpoint : isDigits t.text = true → shape = .plain →
      (ahead drop false ps).any (·.2.passes fun s => s.toList.head? == some '.') = false)
    (hcalm : Calm drop ps) (hps : Sits drop ps) :
    Sits drop (.token t.text origin shape :: ps) := by
  refine ⟨⟨fun hop => ?_, fun hdot => ?_, fun _ => hcalm, hpoint⟩, hps⟩
  · rw [h.isOperator hkind hend] at hop
    cases hop
  · have hdot' := h.kindOf
    rw [hdot] at hdot'
    exact absurd (Option.some.inj (hdot'.symm.trans (by decide : Token.kindOf "." = some .punct)))
      hkind

end EcmaPress

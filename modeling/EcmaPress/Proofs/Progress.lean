import Mathlib.Logic.Relation
import EcmaPress.Grammar.Program
import EcmaPress.Proofs.Positions
import EcmaPress.Proofs.Spelling
import EcmaPress.Proofs.Steps

/-!
# Progress of parsers

A parser moves on in its text or stands still; where it reads a slash once more, as the beginning of
a regular expression, it stands still as well. What is left of the text tells how far it has got: no
move makes it longer, and every token that is read makes it shorter. So a parser that reads a token
on every way to an answer has got to a later place whenever it answers.
-/

namespace EcmaPress

open Relation

/-! ### Moves in a text -/

namespace Cursor

/-- One move in a text: to the next token, or to the current one, read once more as a regular
expression. -/
inductive Moves : Cursor → Cursor → Prop
  | next {c c' : Cursor} : c.next = .ok c' → Moves c c'
  | regex {c c' : Cursor} : c.asRegex = .ok c' → Moves c c'

/-- A move does not make the text longer. -/
theorem Moves.size_le {c c' : Cursor} (h : c.Moves c') : c'.input.size ≤ c.input.size := by
  cases h with
  | next hnext => exact Nat.le_trans (next_size hnext) (Nat.sub_le ..)
  | regex hregex =>
    obtain ⟨n, -, -, hinput, -⟩ := asRegex_eq_ok.mp hregex
    exact Nat.le_of_eq (congrArg Input.size hinput)

theorem size_le_of_moves {c c' : Cursor} (h : ReflTransGen Moves c c') :
    c'.input.size ≤ c.input.size := by
  induction h with
  | refl => exact Nat.le_refl _
  | tail _ hmove ih => exact Nat.le_trans hmove.size_le ih

/-- Where nothing is left of the text, its end is the current token. -/
theorem isEnd_of_size {c : Cursor} (h : c.input.size = 0) : c.token.isEnd = true := by
  by_contra hend
  have hpos := c.stands.length_pos (by simpa using hend)
  have hlen : c.token.text.length ≤ c.input.chars.length :=
    String.length_toList ▸ c.stands.spelled.length_le
  have hsize := c.input.size_eq
  omega

end Cursor

/-- A cursor stands at the place of its token, and behind that place is what is left of the text. -/
structure Cursor.Placed (text : List Char) (c : Cursor) : Prop where
  token : c.token.pos = c.input.pos
  rest : c.input.pos.offset + c.input.size = text.length

theorem Input.offset_drop {input : Input} {n : Nat} (h : n ≤ input.chars.length) :
    (input.drop n).pos.offset + (input.drop n).size = input.pos.offset + input.size := by
  have hsize := input.size_eq
  have hoffset : (input.drop n).pos.offset = input.pos.offset + n := by
    rw [Input.drop, Position.after_eq, List.length_take, Nat.min_eq_left h]
  have hdrop : (input.drop n).size = input.size - n := rfl
  omega

theorem Input.placed_next {input : Input} {past : List Token} {text : List Char} {c : Cursor}
    (hrest : input.pos.offset + input.size = text.length) (h : input.next past = .ok c) :
    c.Placed text := by
  obtain ⟨n, kind, m, hgap, -, htoken, hinput, -⟩ := Cursor.next_eq_ok.mp h
  refine ⟨by rw [htoken, hinput]; rfl, ?_⟩
  rw [hinput, Input.offset_drop (Lexeme.gap_drop hgap).1, hrest]

namespace Cursor

theorem Moves.placed {text : List Char} {c c' : Cursor} (h : c.Moves c') (hc : c.Placed text) :
    c'.Placed text := by
  cases h with
  | next hnext =>
    refine Input.placed_next ?_ hnext
    rw [Input.offset_drop (String.length_toList ▸ c.stands.spelled.length_le)]
    exact hc.rest
  | regex hregex =>
    obtain ⟨n, -, htoken, hinput, -⟩ := asRegex_eq_ok.mp hregex
    exact ⟨by rw [htoken, hinput]; rfl, hinput ▸ hc.rest⟩

/-- A cursor that can be reached by moves from the first token of a text. -/
def Reached (text : List Char) (c : Cursor) : Prop :=
  ∃ first, (Input.ofList text).next = .ok first ∧ ReflTransGen Moves first c

/-- However a cursor has been reached, its offset tells how much of the text is left. -/
theorem Reached.offset_add_size {text : List Char} {c : Cursor} (h : c.Reached text) :
    c.token.pos.offset + c.input.size = text.length := by
  obtain ⟨first, hfirst, hmoves⟩ := h
  have hplaced : c.Placed text := by
    induction hmoves with
    | refl => exact Input.placed_next (Nat.zero_add _) hfirst
    | tail _ hmove ih => exact hmove.placed ih
  rw [hplaced.token]
  exact hplaced.rest

end Cursor

/-! ### Parsers that advance -/

namespace Parser

variable {α β : Type} {parser parser' : Parser α} {gains : α → Bool} {gainsNext : β → Bool}
  {f : α → Parser β} {c : Cursor}

/-- From a cursor, a parser moves on in the text. Behind the answers that `gains` tells, less of the
text is left than before. -/
def AdvancesFrom (c : Cursor) (parser : Parser α) (gains : α → Bool) : Prop :=
  ∀ x c', parser c = .ok (x, c') →
    ReflTransGen Cursor.Moves c c' ∧ (gains x = true → c'.input.size < c.input.size)

/-- A parser moves on in the text wherever it begins. -/
def Advances (parser : Parser α) (gains : α → Bool) : Prop :=
  ∀ c, parser.AdvancesFrom c gains

/-- A parser that may stand still. -/
abbrev Follows (parser : Parser α) : Prop :=
  parser.Advances fun _ => false

/-- A parser that makes the text shorter whenever it answers. -/
abbrev Progresses (parser : Parser α) : Prop :=
  parser.Advances fun _ => true

/-- What a first parser has not gained, the second one has to gain. -/
theorem AdvancesFrom.bind (h : parser.AdvancesFrom c gains)
    (hf : ∀ x, (f x).Advances fun y => !gains x && gainsNext y) :
    (parser >>= f).AdvancesFrom c gainsNext := by
  intro y c' hok
  obtain ⟨x, m, hx, hy⟩ := bind_eq_ok.mp hok
  obtain ⟨hmoves, hshorter⟩ := h x m hx
  obtain ⟨hmoves', hshorter'⟩ := hf x m y c' hy
  refine ⟨hmoves.trans hmoves', fun hgains => ?_⟩
  cases hfirst : gains x with
  | true => exact Nat.lt_of_le_of_lt (Cursor.size_le_of_moves hmoves') (hshorter hfirst)
  | false =>
    exact Nat.lt_of_lt_of_le (hshorter' (by simp [hfirst, hgains])) (Cursor.size_le_of_moves hmoves)

namespace Advances

theorem weaken (h : parser.Advances gains) : parser.Follows :=
  fun c x c' hok => ⟨(h c x c' hok).1, nofun⟩

theorem pure {x : α} (h : gains x = false) : (Pure.pure x : Parser α).Advances gains := by
  intro c y c' hok
  obtain ⟨rfl, rfl⟩ := pure_eq_ok.mp hok
  exact ⟨.refl, fun hx => absurd hx (by simp [h])⟩

theorem fail {fault : Fault} : (Parser.fail fault : Parser α).Advances gains :=
  fun _ _ _ hok => (fail_eq_ok.mp hok).elim

theorem unexpected : (Parser.unexpected : Parser α).Advances gains :=
  fun _ _ _ hok => (unexpected_eq_ok.mp hok).elim

theorem throw {e : SyntaxError} : (throw e : Parser α).Advances gains :=
  fun _ _ _ hok => (throw_eq_ok.mp hok).elim

theorem bind (h : parser.Advances gains)
    (hf : ∀ x, (f x).Advances fun y => !gains x && gainsNext y) :
    (parser >>= f).Advances gainsNext :=
  fun c => (h c).bind hf

theorem follow (h : parser.Advances gains) (hf : ∀ x, (f x).Advances gainsNext) :
    (parser >>= f).Advances gainsNext :=
  h.weaken.bind hf

/-- Once something has been read, what follows may stand still. -/
theorem gain (h : parser.Progresses) (hf : ∀ x, (f x).Follows) :
    (parser >>= f).Advances gainsNext :=
  h.bind hf

theorem ite {b : Prop} [Decidable b] (h : parser.Advances gains) (h' : parser'.Advances gains) :
    (if b then parser else parser').Advances gains := by
  split
  · exact h
  · exact h'

/-- What a parser does may hang on the current token. -/
theorem ofToken {f : Token → Parser α} (h : ∀ c, (f c.token).AdvancesFrom c gains) :
    (peek >>= f).Advances gains := h

theorem peek {f : Token → Parser α} (h : ∀ t, (f t).Advances gains) :
    (Parser.peek >>= f).Advances gains :=
  ofToken fun c => h c.token c

end Advances

/-! ### Single tokens -/

theorem follows_advance : advance.Follows := by
  intro c t c' hok
  exact ⟨.single (.next (advance_eq_ok.mp hok).2), nofun⟩

/-- Something is gained by reading a token that is not the end of the text. -/
theorem advancesFrom_advance {f : Token → Parser α} (hend : c.token.isEnd = false)
    (hf : ∀ t, (f t).Follows) : (advance >>= f).AdvancesFrom c gains := by
  have hread : advance.AdvancesFrom c fun _ => true := fun t c' hok => by
    have hnext := (advance_eq_ok.mp hok).2
    exact ⟨.single (.next hnext), fun _ => Cursor.size_lt hend hnext⟩
  exact hread.bind hf

theorem progresses_expect (text : String) : (expect text).Progresses := by
  intro c t c' hok
  obtain ⟨his, -, hnext⟩ := expect_eq_ok.mp hok
  exact ⟨.single (.next hnext), fun _ => Cursor.size_lt (Token.is_isEnd his) hnext⟩

theorem follows_eat (text : String) : (eat text).Follows := by
  intro c eaten c' hok
  rcases eat_eq_ok.mp hok with ⟨-, -, hnext⟩ | ⟨-, -, rfl⟩
  · exact ⟨.single (.next hnext), nofun⟩
  · exact ⟨.refl, nofun⟩

theorem progresses_identifier : identifier.Progresses := by
  intro c t c' hok
  obtain ⟨hid, -, hnext⟩ := identifier_eq_ok.mp hok
  exact ⟨.single (.next hnext), fun _ => Cursor.size_lt (Token.isIdentifier_kind hid).2 hnext⟩

/-! ### Optional parts and items -/

namespace Advances

/-- Behind a sign that was read something has been gained. -/
theorem ifEat {text : String} (h : parser.Follows) (h' : parser'.Advances gains) :
    (eat text >>= fun eaten => if eaten = true then parser else parser').Advances gains := by
  intro c x c' hok
  rcases eat_bind_eq_ok.mp hok with ⟨his, m, hnext, hok⟩ | ⟨-, hok⟩
  · rw [if_pos rfl] at hok
    have hlt := Cursor.size_lt (Token.is_isEnd his) hnext
    obtain ⟨hmoves, -⟩ := h m x c' hok
    exact ⟨.head (.next hnext) hmoves, fun _ =>
      Nat.lt_of_le_of_lt (Cursor.size_le_of_moves hmoves) hlt⟩
  · exact h' c x c' hok

/-- The answer of an item, as a loop wants it. -/
theorem item (h : parser.Progresses) :
    (parser >>= fun x => Pure.pure (some x)).Advances Option.isSome :=
  h.gain fun _ => pure rfl

theorem many {step : Parser (Option α)} {gains : Option α → Bool} (h : step.Advances gains) :
    (many step).Follows := by
  intro c xs c' hok
  refine ⟨?_, nofun⟩
  induction xs generalizing c with
  | nil => exact (h c _ c' (many_nil.mp hok)).1
  | cons x xs ih =>
    obtain ⟨m, hfirst, -, hrest⟩ := many_cons.mp hok
    exact (h c _ m hfirst).1.trans (ih m hrest)

theorem another (h : parser.Progresses) : (another parser).Advances Option.isSome :=
  ifEat h.item.weaken (pure rfl)

theorem separated (h : parser.Progresses) : (separated parser).Progresses :=
  h.gain fun _ => (many h.another).follow fun _ => pure rfl

theorem inParens (h : parser.Progresses) : (inParens parser).Progresses :=
  (progresses_expect _).gain fun _ => ifEat (pure rfl)
    (h.separated.follow fun _ => (progresses_expect _).follow fun _ => pure rfl)

end Advances

theorem follows_semicolon : semicolon.Follows :=
  .ifEat (.pure rfl) (.peek fun _ => .ite (.pure rfl) .unexpected)

end Parser

/-! ### Places -/

/-- In a text, a parser gets to a later place whenever it answers. -/
def Parser.MovesOn {α : Type} (parser : Parser α) (text : List Char) : Prop :=
  ∀ c x c', c.Reached text → parser c = .ok (x, c') →
    c'.Reached text ∧ c.token.pos.offset < c'.token.pos.offset

/-- A parser that has read something gets to a later place of the text. -/
theorem Parser.Advances.offset_lt {α : Type} {parser : Parser α} {gains : α → Bool}
    (h : parser.Advances gains) {text : List Char} {c c' : Cursor} {x : α} (hc : c.Reached text)
    (hok : parser c = .ok (x, c')) (hgains : gains x = true) :
    c'.Reached text ∧ c.token.pos.offset < c'.token.pos.offset := by
  obtain ⟨hmoves, hshorter⟩ := h c x c' hok
  have hc' : c'.Reached text := hc.imp fun _ => And.imp_right fun hfirst => hfirst.trans hmoves
  have hsize := hc.offset_add_size
  have hsize' := hc'.offset_add_size
  have hlt := hshorter hgains
  exact ⟨hc', by omega⟩

theorem Parser.Progresses.movesOn {α : Type} {parser : Parser α} (h : parser.Progresses)
    (text : List Char) : parser.MovesOn text :=
  fun _ _ _ hc hok => Parser.Advances.offset_lt h hc hok rfl

end EcmaPress

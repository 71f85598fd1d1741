import EcmaPress.Proofs.Mirrors
import EcmaPress.Proofs.Progress

/-!
# Loops that end

A loop takes turn after turn, each of which goes on or answers. If every turn that goes on has read
something, then the loop begins no more turns than characters are left, and ends with an answer or
an error. So `many` never meets its own bound: it does what a loop without one does.
-/

namespace EcmaPress
namespace Parser

variable {σ α β : Type}

/-- A loop that may begin at most so many turns before the end of its text. A turn goes on with
another state, or it answers, which is not counted. At the end of the text a turn may fail besides.
There is no result if more turns are needed. -/
def loop (turn : σ → Parser (σ ⊕ α)) : Nat → σ → Cursor → Option (Except SyntaxError (α × Cursor))
  | 0, state, c =>
    match turn state c with
    | .ok (.inr x, c') => some (.ok (x, c'))
    | .ok (.inl _, _) => none
    | .error error => if c.token.isEnd then some (.error error) else none
  | turns + 1, state, c =>
    match turn state c with
    | .ok (.inr x, c') => some (.ok (x, c'))
    | .ok (.inl state', c') => loop turn turns state' c'
    | .error error => some (.error error)

/-- In a text, a parser does what a loop does, be it an answer or an error, and the loop begins no
more turns than characters are left. -/
def IsLoop (parser : Parser α) (text : List Char) (turn : σ → Parser (σ ⊕ α)) (start : σ) : Prop :=
  ∀ c, c.Reached text → loop turn (text.length - c.token.pos.offset) start c = some (parser c)

/-- What a loop does from each state on: a turn, and what it does from the next state on. Every turn
that goes on has read something. -/
structure Repeats (turn : σ → Parser (σ ⊕ α)) (run : σ → Parser α) : Prop where
  advances : ∀ state, (turn state).Advances Sum.isLeft
  unrolls : ∀ state, run state = do
    match ← turn state with
    | .inl state' => run state'
    | .inr x => return x

namespace Repeats

variable {turn : σ → Parser (σ ⊕ α)} {run : σ → Parser α} {text : List Char} {c m : Cursor}
  {state state' : σ}

theorem run_of_error (h : Repeats turn run) {error : SyntaxError}
    (hturn : turn state c = .error error) : run state c = .error error := by
  rw [h.unrolls]
  exact bind_error hturn

theorem run_of_answer (h : Repeats turn run) {x : α} (hturn : turn state c = .ok (.inr x, m)) :
    run state c = .ok (x, m) := by
  rw [h.unrolls]
  exact bind_run hturn

/-- A turn that goes on leads to a later place. -/
theorem run_of_turn (h : Repeats turn run) (hc : c.Reached text)
    (hturn : turn state c = .ok (.inl state', m)) :
    run state c = run state' m ∧ m.Reached text ∧ c.token.pos.offset < m.token.pos.offset := by
  refine ⟨?_, (h.advances state).offset_lt hc hturn rfl⟩
  rw [h.unrolls]
  exact bind_run hturn

/-- As many turns as characters are left are enough. -/
theorem loop_eq (h : Repeats turn run) (hc : c.Reached text) {turns : Nat}
    (hturns : text.length ≤ c.token.pos.offset + turns) (state : σ) :
    loop turn turns state c = some (run state c) := by
  have hsize := hc.offset_add_size
  induction turns generalizing c state with
  | zero =>
    rw [loop]
    cases hturn : turn state c with
    | error error =>
      have hend := Cursor.isEnd_of_size (show c.input.size = 0 by omega)
      simp only [hend, if_true, h.run_of_error hturn]
    | ok answer =>
      obtain ⟨state' | x, m⟩ := answer
      · -- There is nothing left that the turn could have read.
        obtain ⟨-, hm, hlt⟩ := h.run_of_turn hc hturn
        have := hm.offset_add_size
        omega
      · rw [h.run_of_answer hturn]
  | succ turns ih =>
    rw [loop]
    cases hturn : turn state c with
    | error error => rw [h.run_of_error hturn]
    | ok answer =>
      obtain ⟨state' | x, m⟩ := answer
      · obtain ⟨hrun, hm, hlt⟩ := h.run_of_turn hc hturn
        rw [hrun]
        exact ih hm (by omega) state' hm.offset_add_size
      · rw [h.run_of_answer hturn]

theorem isLoop (h : Repeats turn run) (text : List Char) (start : σ) :
    (run start).IsLoop text turn start :=
  fun _ hc => h.loop_eq hc (by omega) start

end Repeats

/-! ### Loops over items -/

/-- A loop that reads items does not end early: every item makes the text shorter. -/
theorem progress_of_advances {step : Parser (Option α)} (h : step.Advances Option.isSome) :
    progress step = step := by
  funext c
  rw [progress]
  split
  · next hstep => exact hstep.symm
  · next hstep => exact hstep.symm
  · next m hstep => rw [if_pos ((h c _ m hstep).2 rfl), hstep]

/-- One turn of a loop that reads items and puts them behind those it has. -/
def pushing (step : Parser (Option α)) (xs : List α) : Parser (List α ⊕ List α) := do
  match ← step with
  | none => return .inr xs
  | some x => return .inl (xs ++ [x])

theorem repeats_pushing {step : Parser (Option α)} (h : step.Advances Option.isSome) :
    Repeats (pushing step) fun xs => (xs ++ ·) <$> many step where
  advances xs := h.bind fun part => by
    cases part with
    | none => exact .pure rfl
    | some x => exact .pure rfl
  unrolls xs := by
    conv => lhs; rw [many_eq, progress_of_advances h, map_bind]
    rw [pushing, bind_assoc]
    refine bind_congr fun part => ?_
    cases part with
    | none => simp
    | some x => simp

theorem isLoop_many {step : Parser (Option α)} (h : step.Advances Option.isSome)
    (text : List Char) : (many step).IsLoop text (pushing step) [] := by
  have hloop := (repeats_pushing h).isLoop text []
  rwa [show ((([] : List α) ++ ·) <$> many step) = many step from id_map _] at hloop

/-- One turn of a loop that reads items with commas between them: it goes on as long as a comma
stood behind the last one. -/
def listing (item : Parser α) : List α × Bool → Parser (List α × Bool ⊕ List α)
  | (xs, false) => return .inr xs
  | (xs, true) => do
    let x ← item
    let comma ← eat ","
    return .inl (xs ++ [x], comma)

/-- Behind a comma the items go on. -/
theorem many_another {item : Parser α} (h : item.Progresses) :
    many (another item) = (do if ← eat "," then separated item else return []) := by
  rw [many_eq, progress_of_advances h.another, separated]
  generalize many (another item) = others
  rw [another, bind_assoc]
  refine bind_congr fun comma => ?_
  cases comma with
  | false => simp
  | true => simp

theorem repeats_listing {item : Parser α} (h : item.Progresses) :
    Repeats (listing item) fun
      | (xs, false) => return xs
      | (xs, true) => (xs ++ ·) <$> separated item where
  advances state := by
    obtain ⟨xs, _ | _⟩ := state
    · exact .pure rfl
    · exact h.gain fun _ => (follows_eat _).follow fun _ => .pure rfl
  unrolls state := by
    obtain ⟨xs, _ | _⟩ := state
    · simp [listing]
    · simp only [listing, bind_assoc]
      conv => lhs; rw [separated, many_another h]
      rw [map_bind]
      refine bind_congr fun x => ?_
      rw [bind_assoc, map_bind]
      refine bind_congr fun comma => ?_
      cases comma with
      | false => simp
      | true => simp

theorem isLoop_separated {item : Parser α} (h : item.Progresses) (text : List Char) :
    (separated item).IsLoop text (listing item) ([], true) := by
  have hloop : (([] ++ ·) <$> separated item).IsLoop text (listing item) ([], true) :=
    (repeats_listing h).isLoop text ([], true)
  rwa [show ((([] : List α) ++ ·) <$> separated item) = separated item from id_map _] at hloop

/-! ### Parsers told by the current token -/

section

variable {c : Cursor} {s : String}

theorem eat_bind_of_is (h : c.token.is s = true) (f : Bool → Parser β) :
    (eat s >>= f) c = (advance >>= fun _ => f true) c := by
  rw [eat, bind_assoc, peek_bind, h, if_pos rfl, bind_assoc]
  rfl

theorem eat_bind_of_not (h : c.token.is s = false) (f : Bool → Parser β) :
    (eat s >>= f) c = f false c := by
  rw [eat, bind_assoc, peek_bind, h, if_neg Bool.false_ne_true, pure_bind]

theorem unexpected_bind (f : α → Parser β) : (unexpected >>= f) = unexpected := rfl

theorem expect_bind_of_is (h : c.token.is s = true) (f : Token → Parser β) :
    (expect s >>= f) c = (advance >>= f) c := by
  rw [expect, bind_assoc, peek_bind, h, if_pos rfl]

theorem expect_bind_of_not (h : c.token.is s = false) (f : Token → Parser β) :
    (expect s >>= f) c = unexpected c := by
  rw [expect, bind_assoc, peek_bind, h, if_neg Bool.false_ne_true]
  rfl

end

end Parser

end EcmaPress

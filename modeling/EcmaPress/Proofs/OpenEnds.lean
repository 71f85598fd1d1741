import EcmaPress.Proofs.Brackets
import EcmaPress.Proofs.Marks
import EcmaPress.Proofs.Relabelled

/-!
# The ends of programs

The pieces of a statement end in a semicolon that may be dropped, in one that may not, or in a
closing brace; behind that there is layout only. So whether a printed program lacks its last
semicolon is told by the last token that was set on the page.
-/

namespace EcmaPress

open Piece

/-- The last piece of a statement, which may depend on whether the statement is the last one of a
list. -/
inductive Final : (Bool → Piece) → Prop
  | terminator : Final .terminator
  | sign {text : String} : text = ";" ∨ text = "\x7d" → Final fun _ => .sign text

/-- Pieces that end in `final` but for layout, and do not depend on the flag otherwise. -/
def Finishes (final : Bool → Piece) (pieces : Bool → List Piece) : Prop :=
  ∃ ps ls, ls.all isLayout = true ∧ ∀ last, pieces last = ps ++ final last :: ls

namespace Finishes

variable {final : Bool → Piece} {pieces : Bool → List Piece}

theorem append (h : Finishes final pieces) (qs : List Piece) :
    Finishes final fun last => qs ++ pieces last := by
  obtain ⟨ps, ls, hls, h⟩ := h
  exact ⟨qs ++ ps, ls, hls, fun last => by simp only [h, List.append_assoc]⟩

theorem layouts (h : Finishes final pieces) (ls : List Piece) (hls : ls.all isLayout = true) :
    Finishes final fun last => pieces last ++ ls := by
  obtain ⟨ps, ls', hls', h⟩ := h
  refine ⟨ps, ls' ++ ls, by rw [List.all_append, hls', hls]; rfl, fun last => ?_⟩
  simp only [h, List.append_assoc, List.cons_append]

theorem body (h : Finishes final pieces) (s : Statement) :
    Finishes final fun last => s.bodyPieces (pieces last) := by
  cases s with
  | block => exact h.append [.space]
  | empty => exact h
  | _ => exact (h.append [.indent, .newline]).layouts [.dedent] rfl

theorem braces (inside : List Piece) :
    Finishes (fun _ => .sign "\x7d") fun _ => inBraces inside := by
  unfold inBraces
  split
  · exact ⟨[.sign "\x7b"], [], rfl, fun _ => rfl⟩
  · exact ⟨.sign "\x7b" :: .indent :: inside ++ [.dedent, .newline], [], rfl, fun _ => by simp⟩

end Finishes

/-- How the pieces of a statement end. -/
theorem Statement.finishes (s : Statement) : ∃ final, Final final ∧
    Finishes final fun last => s.pieces last := by
  match s with
  | .block body => exact ⟨_, .sign (.inr rfl), .braces _⟩
  | .empty => exact ⟨_, .sign (.inl rfl), [], [], rfl, fun _ => rfl⟩
  | .declarations .. | .expression .. | .doWhile .. | .jump _ _ none | .jump _ _ (some _)
  | .returnValue _ none | .returnValue _ (some _) | .throwValue .. =>
    exact ⟨_, .terminator, _, [], rfl, fun _ => rfl⟩
  | .debugger pos => exact ⟨_, .terminator, [_], [], rfl, fun _ => rfl⟩
  | .ifElse pos test consequent none =>
    obtain ⟨final, hfinal, h⟩ := consequent.finishes
    exact ⟨final, hfinal, (h.body consequent).append _⟩
  | .ifElse pos test consequent (some alternate) =>
    obtain ⟨final, hfinal, h⟩ := alternate.finishes
    have helse : Finishes final fun last => if alternate.isIf then .space :: alternate.pieces last
        else alternate.bodyPieces (alternate.pieces last) := by
      split
      · exact h.append [.space]
      · exact h.body alternate
    exact ⟨final, hfinal, (helse.append _).append _⟩
  | .whileDo _ _ body | .forIn _ _ _ body | .withObject _ _ body =>
    obtain ⟨final, hfinal, h⟩ := body.finishes
    exact ⟨final, hfinal, (h.body body).append _⟩
  | .forLoop _ _ _ _ body =>
    obtain ⟨final, hfinal, h⟩ := body.finishes
    refine ⟨final, hfinal, ?_⟩
    simp only [pieces_forLoop]
    exact (h.body body).append _
  | .labeled label body =>
    obtain ⟨final, hfinal, h⟩ := body.finishes
    exact ⟨final, hfinal, h.append _⟩
  | .switch .. => exact ⟨_, .sign (.inr rfl), _, [], rfl, fun _ => rfl⟩
  | .tryCatch _ _ handler finalizer =>
    simp only [pieces_tryCatch]
    cases finalizer with
    | some => exact ⟨_, .sign (.inr rfl), ((Finishes.braces _).append _).append _⟩
    | none =>
      simp only [piecesOfPart, List.append_nil]
      cases handler with
      | some handler =>
        obtain ⟨param, block⟩ := handler
        exact ⟨_, .sign (.inr rfl), (((Finishes.braces _).append [.space]).append _).append _⟩
      | none =>
        simp only [List.append_nil]
        exact ⟨_, .sign (.inr rfl), (Finishes.braces _).append [_, _]⟩
  | .function (.mk _ none _ _) | .function (.mk _ (some _) _ _) =>
    exact ⟨_, .sign (.inr rfl), ((Finishes.braces _).append [.space]).append _⟩

/-- How the pieces of statements end, each with a line end behind it. -/
theorem linesPieces_finishes {xs : List Statement} (hxs : xs ≠ []) : ∃ final, Final final ∧
    Finishes final fun last => linesPieces [] [.newline] last xs := by
  induction xs with
  | nil => exact absurd rfl hxs
  | cons s rest ih =>
    cases rest with
    | nil =>
      obtain ⟨final, hfinal, ps, ls, hls, h⟩ := s.finishes
      refine ⟨final, hfinal, ps, ls ++ [.newline], by rw [List.all_append, hls]; rfl, fun last => ?_⟩
      simp [linesPieces, h]
    | cons t rest =>
      obtain ⟨final, hfinal, h⟩ := ih (by simp)
      refine ⟨final, hfinal, ?_⟩
      simpa [linesPieces] using (h.append [.newline]).append (s.pieces false)

/-! ### Dropped semicolons -/

namespace Page

variable {style : Style} {renames : Renames}

theorem openEnd_layouts {ls : List Piece} (hls : ls.all isLayout = true) (page : Page) :
    (ls.foldl (set style renames) page).openEnd = page.openEnd := by
  induction ls generalizing page with
  | nil => rfl
  | cons p ls ih =>
    rw [List.all_cons, Bool.and_eq_true] at hls
    rw [List.foldl_cons, ih hls.2]
    cases p with
    | space | newline =>
      simp only [set]
      split <;> rfl
    | indent | dedent => rfl
    | _ => cases hls.1

theorem openEnd_token (style : Style) (page : Page) {text : List Char} (htext : text ≠ [])
    (origin : Option Position) (oldName : Option String) (shape : Shape) :
    (page.token style text origin oldName shape).openEnd = false := by
  unfold token
  split
  · exact absurd rfl htext
  · rfl

/-- Whether a page lacks a semicolon is told by the last piece that is no layout. -/
theorem openEnd_final {final : Bool → Piece} (hfinal : Final final) (ps : List Piece)
    {ls : List Piece} (hls : ls.all isLayout = true) :
    (ofPieces style renames (ps ++ final true :: ls)).openEnd =
      ((final true).text (.ofStyle style renames)).isNone := by
  rw [ofPieces, List.foldl_append, List.foldl_cons, openEnd_layouts hls]
  cases hfinal with
  | terminator =>
    cases hdrop : style.dropSemicolons with
    | true => simp [set, Piece.text, Wording.ofStyle, hdrop]
    | false =>
      simp only [set, Piece.text, Wording.ofStyle, hdrop, Bool.and_false]
      exact openEnd_token style _ (List.cons_ne_nil _ _) none none .plain
  | sign htext =>
    refine openEnd_token style _ ?_ none none .plain
    rcases htext with rfl | rfl <;> simp

end Page
end EcmaPress

import EcmaPress.Proofs.Adjacency

/-!
# The characters that pieces leave on a page

Each piece adds characters at the end of a page: white space before a token, and the token. What
is added depends on little of the page, and what follows a token is white space or another token
that needs no space before it.
-/

namespace EcmaPress
namespace Page

variable (style : Style) (renames : Renames)

/-- The white space in front of a token that begins with `first`. -/
def lead (page : Page) (first : Char) : List Char :=
  (if page.lineStart then (List.replicate page.depth (style.indent.getD "").toList).flatten
    else []) ++
  (if (page.beginLine style).needsSpace first then [' '] else [])

/-- The characters that a token adds to a page. -/
def tokenMarks (page : Page) : List Char → List Char
  | [] => []
  | first :: more => page.lead style first ++ first :: more

/-- The characters that a piece adds to a page. -/
def marks (page : Page) (piece : Piece) : List Char :=
  match piece.text (.ofStyle style renames) with
  | some s => page.tokenMarks style s.toList
  | none =>
    if style.indent.isSome then
      match piece with
      | .space => [' ']
      | .newline => ['\n']
      | _ => []
    else []

/-- The characters that pieces add to a page, one after the other. -/
def allMarks (page : Page) : List Piece → List Char
  | [] => []
  | p :: ps => page.marks style renames p ++ allMarks (page.set style renames p) ps

variable {style renames}

@[simp] theorem written_raw (page : Page) (text : List Char) :
    (page.raw text).written = text.reverse ++ page.written := rfl

theorem written_indentation (page : Page) (indents : List (List Char)) :
    (indents.foldl raw page).written = indents.flatten.reverse ++ page.written := by
  induction indents generalizing page with
  | nil => rfl
  | cons indent indents ih =>
    rw [List.foldl_cons, ih, written_raw, List.flatten_cons, List.reverse_append,
      List.append_assoc]

theorem written_beginLine (page : Page) : (page.beginLine style).written =
    (if page.lineStart then (List.replicate page.depth (style.indent.getD "").toList).flatten
      else []).reverse ++ page.written := by
  unfold beginLine
  split
  · split
    · next hindent =>
      simp only [hindent, Option.getD_none]
      rw [show "".toList = [] from rfl]
      simp
    · next indent hindent =>
      dsimp only
      rw [written_indentation, hindent, Option.getD_some]
  · rfl

theorem lineStart_indentation (page : Page) (indents : List (List Char)) :
    (indents.foldl raw page).lineStart = page.lineStart := by
  induction indents generalizing page with
  | nil => rfl
  | cons indent indents ih => rw [List.foldl_cons, ih]; rfl

theorem lineStart_beginLine (page : Page) : (page.beginLine style).lineStart = false := by
  unfold beginLine
  split
  · split
    · rfl
    · exact lineStart_indentation _ _
  · next h => simpa using h

theorem written_token (style : Style) (page : Page) (text : List Char) (origin : Option Position)
    (oldName : Option String) (shape : Shape) :
    (page.token style text origin oldName shape).written =
      (page.tokenMarks style text).reverse ++ page.written := by
  unfold token tokenMarks lead
  split
  · rfl
  · dsimp only
    rw [written_raw]
    split <;> simp [written_beginLine]

/-- Behind a token no line is begun, and the shape is that of the token. -/
theorem state_token (style : Style) (page : Page) {text : List Char} (htext : text ≠ [])
    (origin : Option Position) (oldName : Option String) (shape : Shape) :
    (page.token style text origin oldName shape).lineStart = false ∧
      (page.token style text origin oldName shape).shape = shape := by
  unfold token
  split
  · exact absurd rfl htext
  · refine ⟨?_, rfl⟩
    dsimp only [raw]
    split <;> exact lineStart_beginLine page

end Page

/-! ### Marks of pieces -/

/-- The shape of what a piece writes. -/
def Piece.shape : Piece → Shape
  | .token _ _ shape => shape
  | _ => .plain

/-- The place that a piece is tied to, and its name if another one is printed. -/
def Piece.tie (renames : Renames) : Piece → Option (Position × Option String)
  | .token _ origin _ => origin.map (·, none)
  | .name id => some (id.pos, if renames[id.pos.offset]?.isSome then some id.name else none)
  | _ => none

namespace Page

variable {style : Style} {renames : Renames}

/-- A piece that writes a text sets it as a token, with what it is tied to. -/
theorem set_tied (page : Page) {p : Piece} {s : String}
    (h : p.text (.ofStyle style renames) = some s) :
    ∃ origin oldName, page.set style renames p = page.token style s.toList origin oldName p.shape ∧
      p.tie renames = origin.map (·, oldName) := by
  cases p with
  | token text origin shape =>
    obtain rfl : text = s := Option.some.inj h
    exact ⟨origin, none, rfl, rfl⟩
  | name id =>
    obtain rfl : renames[id.pos.offset]?.getD id.name = s := Option.some.inj h
    simp only [set, Piece.tie]
    cases renames[id.pos.offset]? with
    | none => exact ⟨some id.pos, none, rfl, rfl⟩
    | some new => exact ⟨some id.pos, some id.name, rfl, rfl⟩
  | terminator last =>
    obtain ⟨hdrop, rfl⟩ := Piece.text_terminator_eq_some.mp h
    exact ⟨none, none, if_neg (Bool.eq_false_iff.mp hdrop), rfl⟩
  | space | newline | indent | dedent => cases h

theorem set_written (page : Page) {p : Piece} {s : String}
    (h : p.text (.ofStyle style renames) = some s) :
    ∃ origin oldName, page.set style renames p = page.token style s.toList origin oldName p.shape := by
  obtain ⟨origin, oldName, hset, -⟩ := page.set_tied h
  exact ⟨origin, oldName, hset⟩

/-- A page is the same for what is set on it next. -/
structure Alike (page page' : Page) : Prop where
  written : page.written = page'.written
  lineStart : page.lineStart = page'.lineStart
  shape : page.shape = page'.shape

theorem Alike.needsSpace {page page' : Page} (h : page.Alike page') (first : Char) :
    page.needsSpace first = page'.needsSpace first := by
  simp only [Page.needsSpace, h.written, h.shape]

theorem written_set (page : Page) (p : Piece) : (page.set style renames p).written =
    (page.marks style renames p).reverse ++ page.written := by
  unfold marks
  split
  · next s hs =>
    obtain ⟨origin, oldName, heq⟩ := page.set_written hs
    rw [heq, written_token]
  · next hs =>
    cases p with
    | token | name => cases hs
    | terminator last =>
      have hdrop : (last && style.dropSemicolons) = true := Piece.text_terminator_eq_none.mp hs
      simp only [set, if_pos hdrop]
      simp
    | space | newline => simp only [set]; split <;> rfl
    | indent | dedent => simp [set]

theorem lead_blank (hindent : ∀ indent ∈ style.indent, ∀ c ∈ indent.toList, c = ' ') (page : Page)
    (first : Char) : ∀ c ∈ page.lead style first, c = ' ' := by
  intro c hc
  rcases List.mem_append.mp hc with hc | hc
  · split at hc
    · obtain ⟨text, htext, hc⟩ := List.mem_flatten.mp hc
      obtain rfl := List.eq_of_mem_replicate htext
      cases hstyle : style.indent with
      | none =>
        rw [hstyle] at hc
        exact nomatch hc
      | some indent =>
        rw [hstyle] at hc
        exact hindent indent hstyle c hc
    · exact nomatch hc
  · split at hc
    · simpa using hc
    · exact nomatch hc

/-- A piece without a text leaves white space, and a line end only if it is one. -/
theorem marks_silent (page : Page) {p : Piece} (h : p.text (.ofStyle style renames) = none) :
    ∀ c ∈ page.marks style renames p, c = ' ' ∨ c = '\n' ∧ p = .newline := by
  intro c hc
  simp only [marks, h] at hc
  split at hc
  · cases p with
    | space => exact .inl (by simpa using hc)
    | newline => exact .inr ⟨by simpa using hc, rfl⟩
    | _ => exact nomatch hc
  · exact nomatch hc

theorem written_foldl (page : Page) (ps : List Piece) :
    (ps.foldl (set style renames) page).written =
      (page.allMarks style renames ps).reverse ++ page.written := by
  induction ps generalizing page with
  | nil => rfl
  | cons p ps ih =>
    rw [List.foldl_cons, ih, written_set, allMarks, List.reverse_append, List.append_assoc]

end Page

/-- A printed program is what its pieces leave on an empty page. -/
theorem Page.text_printed (style : Style) (renames : Renames) (pieces : List Piece) :
    (Page.ofPieces style renames pieces).printed.text.toList =
      ({} : Page).allMarks style renames pieces := by
  rw [printed, ofPieces, String.toList_ofList, written_foldl]
  simp

end EcmaPress

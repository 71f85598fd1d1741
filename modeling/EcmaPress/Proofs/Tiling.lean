import EcmaPress.Proofs.Endings
import EcmaPress.Proofs.Positions

/-!
# Tokens tile their text

However tokens are read from a text one after the other, whichever slashes are read once more as
regular expressions: each token is the piece of the text that begins at its place, the place has
the line and the column that one would count, the tokens do not overlap, and between them stand
white space, line ends and complete comments only. So the end is reached after finitely many
tokens.
-/

namespace EcmaPress

/-! ### Gaps -/

/-- A text of white space, line ends and comments, in front of the text `behind`. A comment on a
line reaches to the end of the line, and a block comment to the first sign that closes it. -/
inductive IsGap (behind : List Char) : List Char → Prop
  | done : IsGap behind []
  | blank {c : Char} {rest : List Char} : (isLineTerminator c || isBlank c) = true →
      IsGap behind rest → IsGap behind (c :: rest)
  | line {body rest : List Char} : body.any isLineTerminator = false →
      (rest ++ behind).head?.all isLineTerminator = true → IsGap behind rest →
      IsGap behind ('/' :: '/' :: (body ++ rest))
  | block {body rest : List Char} : ¬ ['*', '/'] <:+: body ++ ['*'] → IsGap behind rest →
      IsGap behind ('/' :: '*' :: (body ++ '*' :: '/' :: rest))

namespace Lexeme

theorem head_drop_run (p : Char → Bool) (text : List Char) :
    (text.drop (run p text)).head?.all (fun c => !p c) = true := by
  induction text with
  | nil => rfl
  | cons c text ih =>
    by_cases hc : p c = true
    · simpa [run, hc] using ih
    · simp [run, hc]

/-- A block comment reaches to the first sign that closes it. -/
theorem blockComment_closes {text : List Char} {n : Nat} (h : blockComment text = some n) :
    ∃ body, text.take n = body ++ ['*', '/'] ∧ ¬ ['*', '/'] <:+: body ++ ['*'] := by
  fun_induction blockComment text generalizing n with
  | case1 => cases h
  | case2 =>
    obtain rfl := Option.some.inj h
    exact ⟨[], rfl, by decide⟩
  | case3 c rest hopen ih =>
    obtain ⟨k, hk, rfl⟩ := Option.map_eq_some_iff.mp h
    obtain ⟨body, hbody, hfree⟩ := ih hk
    refine ⟨c :: body, by rw [List.take_succ_cons, hbody]; rfl, ?_⟩
    rw [List.cons_append, List.infix_cons_iff, not_or]
    refine ⟨?_, hfree⟩
    rintro ⟨tail, htail⟩
    -- The comment would go on with a slash, and end here.
    obtain ⟨rfl, hslash⟩ := List.cons.inj htail
    have hfirst : (body ++ ['*', '/']).head? = some '/' := by
      cases body with
      | nil => cases hslash
      | cons d body =>
        obtain ⟨rfl, -⟩ := List.cons.inj hslash
        rfl
    rw [← hbody] at hfirst
    obtain ⟨more, hmore⟩ := List.head?_eq_some_iff.mp hfirst
    cases rest with
    | nil => simp at hmore
    | cons e rest =>
      cases k with
      | zero => cases hmore
      | succ k =>
        obtain ⟨rfl, -⟩ := List.cons.inj hmore
        exact hopen rest rfl rfl

/-- What is skipped before a token is a gap. -/
theorem isGap_take {text : List Char} {n : Nat} (h : gap text = .ok n) :
    IsGap (text.drop n) (text.take n) := by
  fun_induction gap text generalizing n with
  | case1 =>
    obtain rfl : 0 = n := by simpa using h
    exact .done
  | case2 c rest hc ih =>
    obtain ⟨k, hk, rfl⟩ := shift_eq_ok h
    exact .blank hc (ih hk)
  | case3 line len =>
    rename_i ih
    obtain ⟨k, hk, rfl⟩ := shift_eq_ok h
    have hle := run_le (fun c => !isLineTerminator c) line
    have htake : ('/' :: '/' :: line).take (k + (len + 2)) =
        '/' :: '/' :: (line.take len ++ (line.drop len).take k) := by
      rw [← List.take_add, ← Nat.add_assoc, Nat.add_comm k]
      rfl
    have hdrop : ('/' :: '/' :: line).drop (k + (len + 2)) = (line.drop len).drop k := by
      rw [List.drop_drop, ← Nat.add_assoc, Nat.add_comm k]
      rfl
    rw [htake, hdrop]
    refine .line ?_ ?_ (ih hk)
    · simpa using all_take_run (fun c => !isLineTerminator c) line
    · rw [List.take_append_drop]
      simpa using head_drop_run (fun c => !isLineTerminator c) line
  | case4 => cases h
  | case5 inside len hlen _ ih =>
    obtain ⟨k, hk, rfl⟩ := shift_eq_ok h
    obtain ⟨body, hbody, hfree⟩ := blockComment_closes hlen
    have htake : ('/' :: '*' :: inside).take (k + (len + 2)) =
        '/' :: '*' :: (body ++ '*' :: '/' :: (inside.drop len).take k) := by
      rw [show body ++ '*' :: '/' :: (inside.drop len).take k =
        body ++ ['*', '/'] ++ (inside.drop len).take k by simp, ← hbody, ← List.take_add,
        ← Nat.add_assoc, Nat.add_comm k]
      rfl
    have hdrop : ('/' :: '*' :: inside).drop (k + (len + 2)) = (inside.drop len).drop k := by
      rw [List.drop_drop, ← Nat.add_assoc, Nat.add_comm k]
      rfl
    rw [htake, hdrop]
    exact .block hfree (ih hk)
  | case6 | case7 =>
    obtain rfl : 0 = n := by simpa using h
    exact .done

end Lexeme

/-- No token ends in a carriage return. -/
theorem Token.StandsAt.not_return {t : Token} {text : List Char} (h : t.StandsAt text) :
    t.text.toList.getLast? ≠ some '\r' := by
  intro hlast
  have hends := h.ends hlast
  cases hkind : t.kind <;> rw [hkind] at hends <;> exact absurd hends (by decide)

/-! ### Runs of a lexer -/

/-- Tokens that are read one after the other from an input. A slash that has just been read may be
read once more as a regular expression, which takes its place. -/
inductive Input.Lexes : Input → List Token → Prop
  | stop {input : Input} : Lexes input []
  | token {input : Input} {past : List Token} {c : Cursor} {ts : List Token} :
      input.next past = .ok c → Lexes (c.input.drop c.token.text.length) ts →
      Lexes input (c.token :: ts)
  | regex {input : Input} {past : List Token} {c r : Cursor} {ts : List Token} :
      input.next past = .ok c → c.token.isSlash = true → c.asRegex = .ok r →
      Lexes (r.input.drop r.token.text.length) ts → Lexes input (r.token :: ts)

/-- What a parser reads is read by its lexer. -/
theorem Cursor.Reads.lexes {c c' : Cursor} {ts : List Token} (h : c.Reads ts c') {input : Input}
    {past : List Token} (hnext : input.next past = .ok c) : input.Lexes ts := by
  induction h generalizing input past with
  | done => exact .stop
  | more htake _ ih =>
    cases htake with
    | plain _ _ hm => exact .token hnext (ih hm)
    | regex hslash hr hm => exact .regex hnext hslash hr (ih hm)

/-- A token is a piece of a text, and stands behind a gap that begins at an offset. It does not
begin between a carriage return and its line feed. -/
structure Token.Tiles (text : List Char) (start : Nat) (t : Token) : Prop where
  ordered : start ≤ t.pos.offset
  slice : t.text.toList <+: text.drop t.pos.offset
  line : t.pos.line = .ofNat (lineEnds (text.take t.pos.offset) + 1)
  column : t.pos.column = .ofNat (sinceLineEnd (text.take t.pos.offset) + 1)
  gap : IsGap (text.drop t.pos.offset) ((text.take t.pos.offset).drop start)
  newline : t.newlineBefore = ((text.take t.pos.offset).drop start).any isLineTerminator
  seam : Seamless (text.take t.pos.offset) (text.drop t.pos.offset)
  atEnd : t.isEnd = true → t.pos.offset = text.length

/-- A token that is not empty stands inside its text, at the place that the text before it leads
to. -/
theorem Token.Tiles.position {text : List Char} {start : Nat} {t : Token} (h : t.Tiles text start)
    (hne : t.text ≠ "") : t.pos.offset < text.length ∧
      t.pos = Position.start.after (text.take t.pos.offset) := by
  have hlt : t.pos.offset < text.length := by
    have hlen := h.slice.length_le
    have hpos : 0 < t.text.toList.length :=
      List.length_pos_iff.mpr fun hnil => hne (String.toList_injective hnil)
    rw [List.length_drop] at hlen
    omega
  refine ⟨hlt, ?_⟩
  rw [Position.start_after, List.length_take, Nat.min_eq_left (Nat.le_of_lt hlt), ← h.line, ← h.column]

/-- Tokens are pieces of a text, in order and without overlap, and only gaps stand between them. -/
inductive Tiling (text : List Char) : Nat → List Token → Prop
  | done {start : Nat} : Tiling text start []
  | token {start : Nat} {t : Token} {ts : List Token} : t.Tiles text start →
      Tiling text (t.pos.offset + t.text.length) ts → Tiling text start (t :: ts)

theorem Tiling.tiles {text : List Char} {start : Nat} {ts : List Token} (h : Tiling text start ts) :
    ∀ t ∈ ts, ∃ start, t.Tiles text start := by
  induction h with
  | done => nofun
  | token htiles _ ih => exact List.forall_mem_cons.mpr ⟨⟨_, htiles⟩, ih⟩

/-- A token has the line and the column that one would count, if positions cover the text. -/
theorem Token.Tiles.exact {text : List Char} {start : Nat} {t : Token} (h : t.Tiles text start)
    (hcovers : Position.Covers text) :
    t.pos.line.toNat = lineEnds (text.take t.pos.offset) + 1 ∧
      t.pos.column.toNat = sinceLineEnd (text.take t.pos.offset) + 1 := by
  have hfront := hcovers _ (text.take_prefix t.pos.offset)
  rw [h.line, h.column]
  exact ⟨UInt32.toNat_ofNat_of_lt' hfront.1, UInt32.toNat_ofNat_of_lt' hfront.2⟩

/-- An input is what is left of a text behind `front`, and knows its place. -/
structure Input.Behind (text front : List Char) (input : Input) : Prop where
  split : text = front ++ input.chars
  place : input.pos = Position.start.after front
  seam : Seamless front input.chars

namespace Input.Behind

variable {text front : List Char} {input : Input}

theorem start (text : List Char) : Behind text [] (.ofList text) :=
  ⟨rfl, rfl, nofun⟩

theorem offset (h : input.Behind text front) : input.pos.offset = front.length := by
  rw [h.place, Position.start_after]

/-- What is cut off goes to the front. -/
theorem drop (h : input.Behind text front) {n : Nat}
    (hseam : Seamless (front ++ input.chars.take n) (input.chars.drop n)) :
    (input.drop n).Behind text (front ++ input.chars.take n) := by
  refine ⟨?_, ?_, hseam⟩
  · rw [List.append_assoc, h.split]
    exact congrArg _ (List.take_append_drop ..).symm
  · rw [Position.after_append _ (h.seam.take n), ← h.place]
    rfl

/-- A gap may be cut off. -/
theorem drop_gap (h : input.Behind text front) {n : Nat} (hgap : Lexeme.gap input.chars = .ok n) :
    (input.drop n).Behind text (front ++ input.chars.take n) := by
  refine h.drop fun _ hnewline => ?_
  obtain ⟨rest, hrest⟩ := List.head?_eq_some_iff.mp hnewline
  have hnone := (Lexeme.gap_drop hgap).2
  rw [hrest, Lexeme.gap_eq_zero] at hnone
  exact absurd hnone.1 (by decide)

/-- A token may be cut off. -/
theorem drop_token (h : input.Behind text front) {t : Token} (ht : t.StandsAt input.chars) :
    (input.drop t.text.length).Behind text (front ++ t.text.toList) := by
  rw [← ht.take]
  refine h.drop ?_
  rw [ht.take]
  cases htext : t.text.toList with
  | nil =>
    rw [← String.length_toList, htext, List.append_nil]
    exact h.seam
  | cons first more =>
    intro hlast
    rw [List.getLast?_append, List.getLast?_cons, Option.some_or, ← List.getLast?_cons, ← htext] at hlast
    exact absurd hlast ht.not_return

/-- A token that stands behind a gap tiles the text. -/
theorem tiles (h : input.Behind text front) {n : Nat} (hgap : Lexeme.gap input.chars = .ok n)
    {t : Token} (hpos : t.pos = (input.drop n).pos) (ht : t.StandsAt (input.drop n).chars)
    (hline : t.newlineBefore = (input.chars.take n).any isLineTerminator) :
    t.Tiles text front.length := by
  have hbehind := h.drop_gap hgap
  have hoffset : t.pos.offset = (front ++ input.chars.take n).length := by
    rw [hpos, hbehind.offset]
  have htake : text.take t.pos.offset = front ++ input.chars.take n := by
    rw [hoffset, hbehind.split, List.take_left]
  have hdrop : text.drop t.pos.offset = (input.drop n).chars := by
    rw [hoffset, hbehind.split, List.drop_left]
  have hplace : t.pos = ⟨_, _, _⟩ := hpos.trans (hbehind.place.trans (Position.start_after _))
  refine ⟨?_, ?_, ?_, ?_, ?_, ?_, ?_, fun hend => ?_⟩
  · rw [hoffset, List.length_append]
    exact Nat.le_add_right ..
  · rw [hdrop]
    exact ht.spelled
  · rw [htake, hplace]
  · rw [htake, hplace]
  · rw [hdrop, htake, List.drop_left]
    exact Lexeme.isGap_take hgap
  · rw [htake, List.drop_left, hline]
  · rw [htake, hdrop]
    exact hbehind.seam
  · have hnone : (input.drop n).chars = [] := by
      rcases ht.lexeme with hscan | ⟨hkind, -⟩
      · exact Lexeme.scan_end (by rwa [eq_of_beq hend] at hscan)
      · rw [Token.isEnd, hkind] at hend
        cases hend
    rw [hoffset, hbehind.split, hnone, List.append_nil]

/-- What has been read tiles the text, and behind it the text goes on, shorter than before unless
its end was read. The second cursor is the first one, or has read its slash once more. -/
theorem read (h : input.Behind text front) {past : List Token} {c r : Cursor}
    (hnext : input.next past = .ok c) (hinput : r.input = c.input)
    (hpos : r.token.pos = c.input.pos) (hline : r.token.newlineBefore = c.token.newlineBefore) :
    r.token.Tiles text front.length ∧
      (∃ front', (r.input.drop r.token.text.length).Behind text front' ∧
        front'.length = r.token.pos.offset + r.token.text.length) ∧
      (r.token.isEnd = false →
        (r.input.drop r.token.text.length).chars.length < input.chars.length) := by
  obtain ⟨n, kind, m, hgap, -, htoken, hinput', -⟩ := Cursor.next_eq_ok.mp hnext
  rw [hinput'] at hinput
  have hpos' : r.token.pos = (input.drop n).pos := by rw [hpos, hinput']
  have hline' : r.token.newlineBefore = (input.chars.take n).any isLineTerminator := by
    rw [hline, htoken]
    rfl
  have hbehind := h.drop_gap hgap
  refine ⟨h.tiles hgap hpos' (hinput ▸ r.stands) hline', ⟨_, hinput ▸ hbehind.drop_token
    (hinput ▸ r.stands), ?_⟩, fun hend => ?_⟩
  · rw [List.length_append, String.length_toList, hpos', hbehind.offset]
  · have hsome := r.stands.length_pos hend
    have hlen := r.stands.spelled.length_le
    rw [hinput] at hlen ⊢
    simp only [Input.drop, List.length_drop, String.length_toList] at hlen ⊢
    omega

end Input.Behind

/-- However tokens are read on in a text, they tile it from there, and there are no more of them
than characters before the end is read. -/
theorem Input.Lexes.tiling_behind {text front : List Char} {input : Input} {ts : List Token}
    (h : input.Lexes ts) (hbehind : input.Behind text front) :
    Tiling text front.length ts ∧
      ((∀ t ∈ ts, t.isEnd = false) → ts.length ≤ input.chars.length) := by
  have hstep {input : Input} {front : List Char} {past : List Token} {c r : Cursor}
      {ts : List Token} (hbehind : input.Behind text front) (hnext : input.next past = .ok c)
      (hinput : r.input = c.input) (hpos : r.token.pos = c.input.pos)
      (hline : r.token.newlineBefore = c.token.newlineBefore)
      (ih : ∀ front, (r.input.drop r.token.text.length).Behind text front →
        Tiling text front.length ts ∧ ((∀ t ∈ ts, t.isEnd = false) →
          ts.length ≤ (r.input.drop r.token.text.length).chars.length)) :
      Tiling text front.length (r.token :: ts) ∧
        ((∀ t ∈ r.token :: ts, t.isEnd = false) → (r.token :: ts).length ≤ input.chars.length) := by
    obtain ⟨htiles, ⟨front', hbehind', hlen⟩, hshorter⟩ := hbehind.read hnext hinput hpos hline
    obtain ⟨htiling, hbound⟩ := ih front' hbehind'
    refine ⟨.token htiles (hlen ▸ htiling), fun hall => ?_⟩
    rw [List.forall_mem_cons] at hall
    exact Nat.lt_of_le_of_lt (hbound hall.2) (hshorter hall.1)
  induction h generalizing front with
  | stop => exact ⟨.done, fun _ => Nat.zero_le _⟩
  | token hnext _ ih =>
    obtain ⟨n, kind, m, -, -, htoken, hinput, -⟩ := Cursor.next_eq_ok.mp hnext
    exact hstep hbehind hnext rfl (by rw [htoken, hinput]; rfl) rfl fun _ => ih
  | regex hnext _ hr _ ih =>
    obtain ⟨n, -, htoken, hinput, -⟩ := Cursor.asRegex_eq_ok.mp hr
    exact hstep hbehind hnext hinput (by rw [htoken]; rfl) (by rw [htoken]; rfl) fun _ => ih

/-- However tokens are read from a text, they tile it, and a run of more tokens than the text has
characters has read its end. Lines and columns are counted in 32 bits, and exact where these
suffice. -/
theorem Input.Lexes.tiling {text : List Char} {ts : List Token} (h : (Input.ofList text).Lexes ts) :
    Tiling text 0 ts ∧ (text.length < ts.length → ∃ t ∈ ts, t.isEnd = true) ∧
      (Position.Covers text → ∀ t ∈ ts,
        t.pos.line.toNat = lineEnds (text.take t.pos.offset) + 1 ∧
          t.pos.column.toNat = sinceLineEnd (text.take t.pos.offset) + 1) := by
  obtain ⟨htiling, hbound⟩ := h.tiling_behind (.start text)
  refine ⟨htiling, fun hlong => ?_, fun hcovers t ht => ?_⟩
  · by_contra hnone
    simp only [not_exists, not_and, Bool.not_eq_true] at hnone
    exact Nat.not_lt.mpr (hbound hnone) hlong
  · obtain ⟨start, htiles⟩ := htiling.tiles t ht
    exact htiles.exact hcovers

theorem Input.Lexes.tiling_regex : ∃ ts, (Input.ofList "a\r\n /b/".toList).Lexes ts ∧
    ts.map Token.text = ["a", "/b/"] ∧ Tiling "a\r\n /b/".toList 0 ts ∧
    Position.Covers "a\r\n /b/".toList ∧ ∀ t ∈ ts,
      t.pos.line.toNat = lineEnds ("a\r\n /b/".toList.take t.pos.offset) + 1 := by
  have hrun : ((Input.ofList "a\r\n /b/".toList).next []).toOption.any (fun c =>
      ((c.input.drop c.token.text.length).next []).toOption.any fun d =>
        d.token.isSlash && d.asRegex.toOption.any fun r =>
          [c.token.text, r.token.text] == ["a", "/b/"]) = true := by decide +kernel
  obtain ⟨c, hc, hrun⟩ := exists_ok_of_any hrun
  obtain ⟨d, hd, hrun⟩ := exists_ok_of_any hrun
  obtain ⟨hslash, hrun⟩ := Bool.and_eq_true_iff.mp hrun
  obtain ⟨r, hr, htexts⟩ := exists_ok_of_any hrun
  have hlexes : (Input.ofList "a\r\n /b/".toList).Lexes [c.token, r.token] :=
    .token hc (.regex hd hslash hr .stop)
  have hcovers : Position.Covers "a\r\n /b/".toList := Position.covers_of_length (by decide)
  exact ⟨_, hlexes, beq_iff_eq.mp htexts, hlexes.tiling.1, hcovers,
    fun t ht => (hlexes.tiling.2.2 hcovers t ht).1⟩

end EcmaPress

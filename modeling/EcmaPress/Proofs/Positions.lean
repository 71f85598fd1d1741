import EcmaPress.Mapping.Segment
import EcmaPress.Text.Position
import Mathlib.Data.List.TakeWhile

/-!
# Places in a text

The line and the column of a place count the line ends before it and the characters behind the
last one of them. A text may be gone through part by part, if it is not cut between a carriage
return and its line feed.
-/

namespace EcmaPress

/-- How many lines end in a text. A carriage return and the line feed behind it end one line. -/
def lineEnds : List Char → Nat
  | [] => 0
  | '\r' :: '\n' :: rest => lineEnds rest + 1
  | c :: rest => if isLineTerminator c then lineEnds rest + 1 else lineEnds rest

/-- How many characters stand behind the last line end of a text. -/
def sinceLineEnd (text : List Char) : Nat :=
  (text.reverse.takeWhile fun c => !isLineTerminator c).length

/-- A text can be cut here: not between a carriage return and its line feed. -/
def Seamless (front back : List Char) : Prop :=
  front.getLast? = some '\r' → back.head? ≠ some '\n'

theorem Seamless.of_not_return {front : List Char} (h : front.getLast? ≠ some '\r')
    (back : List Char) : Seamless front back :=
  fun hlast => absurd hlast h

theorem Seamless.tail {c : Char} {front back : List Char} (h : Seamless (c :: front) back) :
    Seamless front back := by
  cases front with
  | nil => nofun
  | cons d rest => rwa [Seamless, List.getLast?_cons_cons] at h

/-- What stands behind the cut makes no line end with what stands before it. -/
theorem Seamless.not_crlf {c : Char} {front back : List Char} (h : Seamless (c :: front) back)
    (hfront : ∀ rest, c = '\r' → front = '\n' :: rest → False) (rest : List Char) (hc : c = '\r')
    (heq : front ++ back = '\n' :: rest) : False := by
  subst hc
  cases front with
  | nil => exact h rfl (by rw [show back = '\n' :: rest from heq]; rfl)
  | cons d front =>
    obtain ⟨rfl, -⟩ := List.cons.inj heq
    exact hfront front rfl rfl

theorem sinceLineEnd_of_none {text : List Char} (h : text.any isLineTerminator = false) :
    sinceLineEnd text = text.length := by
  rw [sinceLineEnd, List.takeWhile_eq_self_iff.mpr, List.length_reverse]
  simpa using h

theorem sinceLineEnd_of_any {text : List Char} (h : text.any isLineTerminator = true) (c : Char) :
    sinceLineEnd (c :: text) = sinceLineEnd text := by
  rw [sinceLineEnd, sinceLineEnd, List.reverse_cons, List.takeWhile_append, if_neg]
  intro hlen
  have hall := (List.takeWhile_prefix _).eq_of_length hlen
  rw [List.takeWhile_eq_self_iff] at hall
  obtain ⟨d, hd, hterminator⟩ := List.any_eq_true.mp h
  simpa [hterminator] using hall d (List.mem_reverse.mpr hd)

theorem sinceLineEnd_terminator {c : Char} (hc : isLineTerminator c = true) {text : List Char}
    (h : text.any isLineTerminator = false) : sinceLineEnd (c :: text) = text.length := by
  rw [sinceLineEnd, List.reverse_cons, List.takeWhile_append_of_pos (by simpa using h)]
  simp [hc]

theorem lineEnds_of_none {text : List Char} (h : text.any isLineTerminator = false) :
    lineEnds text = 0 := by
  fun_induction lineEnds text with
  | case1 => rfl
  | case2 => cases h
  | case3 c rest _ hc => simp [hc] at h
  | case4 c rest _ hc ih =>
    rw [List.any_cons, Bool.or_eq_false_iff] at h
    exact ih h.2

theorem lineEnds_pos {text : List Char} (h : text.any isLineTerminator = true) :
    0 < lineEnds text := by
  fun_induction lineEnds text with
  | case1 => cases h
  | case2 => exact Nat.succ_pos _
  | case3 => exact Nat.succ_pos _
  | case4 c rest _ hc ih =>
    rw [List.any_cons, Bool.or_eq_true] at h
    exact ih (h.resolve_left hc)

theorem Seamless.take {front back : List Char} (h : Seamless front back) (n : Nat) :
    Seamless front (back.take n) := by
  intro hlast
  have hno := h hlast
  cases n with
  | zero => simp
  | succ n => cases back <;> simp_all

/-! ### Counting on -/

theorem lineEnds_append {front back : List Char} (h : Seamless front back) :
    lineEnds (front ++ back) = lineEnds front + lineEnds back := by
  fun_induction lineEnds front with
  | case1 => rw [List.nil_append, Nat.zero_add]
  | case2 rest ih =>
    rw [List.cons_append, List.cons_append, lineEnds, ih h.tail.tail]
    omega
  | case3 c rest hcrlf hc ih =>
    rw [List.cons_append, lineEnds, if_pos hc, ih h.tail]
    · omega
    · exact h.not_crlf hcrlf
  | case4 c rest hcrlf hc ih =>
    rw [List.cons_append, lineEnds, if_neg hc, ih h.tail]
    exact h.not_crlf hcrlf

theorem sinceLineEnd_append (front back : List Char) :
    sinceLineEnd (front ++ back) =
      if back.any isLineTerminator then sinceLineEnd back else sinceLineEnd front + back.length := by
  induction front with
  | nil =>
    cases h : back.any isLineTerminator with
    | true => rfl
    | false => rw [List.nil_append, sinceLineEnd_of_none h]; exact (Nat.zero_add _).symm
  | cons c front ih =>
    cases hc : (front ++ back).any isLineTerminator with
    | true =>
      rw [List.cons_append, sinceLineEnd_of_any hc, ih]
      cases hback : back.any isLineTerminator with
      | true => rfl
      | false =>
        have hfront : front.any isLineTerminator = true := by simpa [hback] using hc
        rw [sinceLineEnd_of_any hfront]
    | false =>
      obtain ⟨hfront, hback⟩ := Bool.or_eq_false_iff.mp (List.any_append ▸ hc)
      rw [List.cons_append, if_neg (by simp [hback])]
      cases hd : isLineTerminator c with
      | true =>
        rw [sinceLineEnd_terminator hd hc, sinceLineEnd_terminator hd hfront, List.length_append]
      | false =>
        rw [sinceLineEnd_of_none, sinceLineEnd_of_none] <;> simp [hd, hfront, hback]
        omega

theorem lineEnds_le (text : List Char) : lineEnds text ≤ text.length := by
  fun_induction lineEnds text with
  | case1 => exact Nat.le_refl _
  | case2 rest ih | case3 c rest _ _ ih | case4 c rest _ _ ih =>
    simp only [List.length_cons]
    omega

theorem sinceLineEnd_le (text : List Char) : sinceLineEnd text ≤ text.length := by
  have hle := (List.takeWhile_prefix (l := text.reverse) fun c => !isLineTerminator c).length_le
  rwa [List.length_reverse] at hle

/-! ### Places of any size -/

/-- A line and a column of any size, both counted from zero. -/
structure Spot where
  line : Nat := 0
  column : Nat := 0
deriving DecidableEq

namespace Spot

/-- One spot stands before another one. -/
def Before (p q : Spot) : Prop :=
  p.line < q.line ∨ p.line = q.line ∧ p.column < q.column

theorem Before.trans {p q r : Spot} (h : p.Before q) (h' : q.Before r) : p.Before r := by
  unfold Before at *
  omega

/-- A line and a column of 32 bits. -/
def Fits (s : Spot) : Prop :=
  s.line < UInt32.size ∧ s.column < UInt32.size

/-- The end of a source text. -/
def inSource (text : List Char) : Spot :=
  ⟨lineEnds text, sinceLineEnd text⟩

/-- A later offset is on a later line of a source text, or in a later column of its line. -/
theorem inSource_before {text : List Char} {i j : Nat} (hij : i < j) (hj : j ≤ text.length)
    (hseam : Seamless (text.take i) (text.drop i)) :
    (inSource (text.take i)).Before (inSource (text.take j)) := by
  obtain ⟨k, rfl⟩ := Nat.exists_eq_add_of_lt hij
  rw [Nat.add_assoc, List.take_add, inSource, inSource, lineEnds_append (hseam.take _),
    sinceLineEnd_append, Before]
  have hlength : 0 < ((text.drop i).take (k + 1)).length := by
    rw [List.length_take, List.length_drop]
    omega
  cases hany : ((text.drop i).take (k + 1)).any isLineTerminator with
  | true =>
    have := lineEnds_pos hany
    exact .inl (by dsimp only; omega)
  | false =>
    rw [lineEnds_of_none hany]
    exact .inr ⟨rfl, by simp only [Bool.false_eq_true, if_false]; omega⟩

/-- The spot behind a stretch of generated text that begins at `s`. -/
def after : Spot → List Char → Spot
  | s, [] => s
  | s, '\r' :: '\n' :: rest => after ⟨s.line + 1, 0⟩ rest
  | s, c :: rest =>
    if c == '\n' || c == '\r' then after ⟨s.line + 1, 0⟩ rest
    else after ⟨s.line, s.column + 1⟩ rest

/-- The spot behind a generated text is found part by part. -/
theorem after_append (s : Spot) {front back : List Char} (h : Seamless front back) :
    s.after (front ++ back) = (s.after front).after back := by
  fun_induction after s front with
  | case1 => rfl
  | case2 s rest ih =>
    rw [List.cons_append, List.cons_append, after]
    exact ih h.tail.tail
  | case3 s c rest hcrlf hc ih =>
    rw [List.cons_append, after, if_pos hc]
    · exact ih h.tail
    · exact h.not_crlf hcrlf
  | case4 s c rest hcrlf hc ih =>
    rw [List.cons_append, after, if_neg hc]
    · exact ih h.tail
    · exact h.not_crlf hcrlf

/-- A generated text leads to a later spot. -/
theorem before_after (s : Spot) {text : List Char} (h : text ≠ []) : s.Before (s.after text) := by
  have hnext {p q : Spot} {rest : List Char} (hq : p.Before q)
      (ih : rest ≠ [] → q.Before (q.after rest)) : p.Before (q.after rest) := by
    cases rest with
    | nil => exact hq
    | cons d rest => exact hq.trans (ih (by simp))
  fun_induction after s text with
  | case1 => exact absurd rfl h
  | case2 s rest ih => exact hnext (.inl (Nat.lt_succ_self _)) ih
  | case3 s c rest _ _ ih => exact hnext (.inl (Nat.lt_succ_self _)) ih
  | case4 s c rest _ _ ih => exact hnext (.inr ⟨rfl, Nat.lt_succ_self _⟩) ih

/-- A later offset of a generated text is at a later spot. -/
theorem before_of_take {text : List Char} {i j : Nat} (hij : i < j) (hj : j ≤ text.length)
    (hseam : Seamless (text.take i) (text.drop i)) :
    (after {} (text.take i)).Before (after {} (text.take j)) := by
  obtain ⟨k, rfl⟩ := Nat.exists_eq_add_of_lt hij
  rw [Nat.add_assoc, List.take_add, after_append _ (hseam.take _)]
  refine before_after _ (List.ne_nil_of_length_pos ?_)
  rw [List.length_take, List.length_drop]
  omega

theorem after_le (s : Spot) (text : List Char) :
    (s.after text).line ≤ s.line + text.length ∧ (s.after text).column ≤ s.column + text.length := by
  fun_induction after s text with
  | case1 => exact ⟨Nat.le_refl _, Nat.le_refl _⟩
  | case2 s rest ih | case3 s c rest _ _ ih | case4 s c rest _ _ ih =>
    simp only [List.length_cons] at ih ⊢
    omega

/-- The place of a spot, each number in 32 bits. -/
def place (s : Spot) : Place :=
  ⟨.ofNat s.line, .ofNat s.column⟩

/-- Places follow a text as spots do. -/
theorem place_after (s : Spot) (text : List Char) : (s.after text).place = s.place.after text := by
  fun_induction after s text with
  | case1 => rfl
  | case2 s rest ih => rw [ih, Place.after, place, UInt32.ofNat_add]; rfl
  | case3 s c rest hcrlf hc ih =>
    rw [ih, Place.after, if_pos hc, place, UInt32.ofNat_add]
    · rfl
    · exact hcrlf
  | case4 s c rest hcrlf hc ih =>
    rw [ih, Place.after, if_neg hc, place, UInt32.ofNat_add]
    · rfl
    · exact hcrlf

end Spot

/-! ### Positions -/

namespace Position

/-- The place behind a text is found part by part. -/
theorem after_append (p : Position) {front back : List Char} (h : Seamless front back) :
    p.after (front ++ back) = (p.after front).after back := by
  fun_induction after p front with
  | case1 => rfl
  | case2 p rest ih =>
    rw [List.cons_append, List.cons_append, after]
    exact ih h.tail.tail
  | case3 p c rest hcrlf ih =>
    rw [List.cons_append, after]
    · exact ih h.tail
    · exact h.not_crlf hcrlf

/-- The place behind a text tells how long it is, how many lines end in it, and what stands behind
the last one. -/
theorem after_eq (p : Position) (text : List Char) :
    p.after text = ⟨p.offset + text.length, p.line + .ofNat (lineEnds text),
      if text.any isLineTerminator then .ofNat (sinceLineEnd text + 1)
      else p.column + .ofNat text.length⟩ := by
  have hcolumn {c : Char} (hc : isLineTerminator c = true) (rest : List Char) :
      (if rest.any isLineTerminator then .ofNat (sinceLineEnd rest + 1)
        else 1 + .ofNat rest.length : UInt32) = .ofNat (sinceLineEnd (c :: rest) + 1) := by
    cases h : rest.any isLineTerminator with
    | true => rw [if_pos rfl, sinceLineEnd_of_any h]
    | false =>
      rw [if_neg (by decide), sinceLineEnd_terminator hc h, UInt32.ofNat_add, UInt32.add_comm]
      rfl
  fun_induction after p text with
  | case1 => simp [lineEnds]
  | case2 p rest ih =>
    rw [ih, hcolumn (by decide : isLineTerminator '\n' = true)]
    have hany : ('\n' :: rest).any isLineTerminator = true := rfl
    rw [← sinceLineEnd_of_any hany '\r']
    simp [lineEnds, isLineTerminator, UInt32.ofNat_add, UInt32.add_assoc, UInt32.add_comm]
    omega
  | case3 p c rest hcrlf ih =>
    have hends : lineEnds (c :: rest) =
        if isLineTerminator c then lineEnds rest + 1 else lineEnds rest := by
      rw [lineEnds]
      exact hcrlf
    rw [ih, step, hends]
    cases hc : isLineTerminator c with
    | true =>
      simp only [if_true, hcolumn hc, List.any_cons, hc, Bool.true_or, List.length_cons]
      simp [UInt32.ofNat_add, UInt32.add_assoc, UInt32.add_comm]
      omega
    | false =>
      simp only [Bool.false_eq_true, if_false, List.any_cons, hc, Bool.false_or, List.length_cons]
      cases h : rest.any isLineTerminator with
      | true => rw [if_pos rfl, sinceLineEnd_of_any h]; simp; omega
      | false => simp [UInt32.ofNat_add, UInt32.add_assoc, UInt32.add_comm]; omega

/-- The place behind a text, from its beginning. -/
theorem start_after (text : List Char) :
    start.after text =
      ⟨text.length, .ofNat (lineEnds text + 1), .ofNat (sinceLineEnd text + 1)⟩ := by
  rw [after_eq]
  cases h : text.any isLineTerminator with
  | true => simp [start, UInt32.ofNat_add, UInt32.add_comm]
  | false => simp [start, sinceLineEnd_of_none h, UInt32.ofNat_add, UInt32.add_comm]

/-- Positions cover a text if no place of it has a line or a column, counted from one, that is
beyond 32 bits. -/
def Covers (text : List Char) : Prop :=
  ∀ front, front <+: text →
    lineEnds front + 1 < UInt32.size ∧ sinceLineEnd front + 1 < UInt32.size

theorem covers_of_length {text : List Char} (h : text.length + 1 < UInt32.size) :
    Covers text := by
  intro front hfront
  have hle := hfront.length_le
  have hline := lineEnds_le front
  have hcolumn := sinceLineEnd_le front
  omega

/-- In a text that is covered lines and columns are what one would count. -/
theorem Covers.exact {text front : List Char} (h : Covers text) (hfront : front <+: text) :
    (start.after front).line.toNat = lineEnds front + 1 ∧
      (start.after front).column.toNat = sinceLineEnd front + 1 := by
  rw [start_after]
  exact ⟨UInt32.toNat_ofNat_of_lt' (h front hfront).1, UInt32.toNat_ofNat_of_lt' (h front hfront).2⟩

end Position

/-! ### Places -/

namespace Place

/-- One place stands before another one. -/
def Before (p q : Place) : Prop :=
  p.line < q.line ∨ p.line = q.line ∧ p.column < q.column

theorem before_iff {p q : Place} : p.Before q ↔
    p.line.toNat < q.line.toNat ∨
      p.line.toNat = q.line.toNat ∧ p.column.toNat < q.column.toNat := by
  rw [Before, UInt32.lt_iff_toNat_lt, UInt32.lt_iff_toNat_lt, UInt32.toNat_inj]

/-- Spots of 32 bits are in the order of their places. -/
theorem before_place {p q : Spot} (hp : p.Fits) (hq : q.Fits) :
    p.place.Before q.place ↔ p.Before q := by
  rw [before_iff, Spot.place, Spot.place, UInt32.toNat_ofNat_of_lt' hp.1,
    UInt32.toNat_ofNat_of_lt' hq.1, UInt32.toNat_ofNat_of_lt' hp.2, UInt32.toNat_ofNat_of_lt' hq.2]
  rfl

/-- A place as a spot. -/
def spot (p : Place) : Spot :=
  ⟨p.line.toNat, p.column.toNat⟩

theorem before_spot {p q : Place} : p.spot.Before q.spot ↔ p.Before q :=
  before_iff.symm

/-- The place behind a generated text is found part by part. -/
theorem after_append (p : Place) {front back : List Char} (h : Seamless front back) :
    p.after (front ++ back) = (p.after front).after back := by
  fun_induction after p front with
  | case1 => rfl
  | case2 p rest ih =>
    rw [List.cons_append, List.cons_append, after]
    exact ih h.tail.tail
  | case3 p c rest hcrlf hc ih =>
    rw [List.cons_append, after, if_pos hc]
    · exact ih h.tail
    · exact h.not_crlf hcrlf
  | case4 p c rest hcrlf hc ih =>
    rw [List.cons_append, after, if_neg hc]
    · exact ih h.tail
    · exact h.not_crlf hcrlf

theorem start_after (text : List Char) :
    after {} text = (({} : Spot).after text).place :=
  (Spot.place_after {} text).symm

/-- Places cover a generated text if none of it has a line or a column that is beyond 32 bits. -/
def Covers (text : List Char) : Prop :=
  ∀ front, front <+: text → (({} : Spot).after front).Fits

theorem Covers.append {front back : List Char} (h : Covers (front ++ back)) : Covers front :=
  fun _ hstart => h _ (hstart.trans (List.prefix_append ..))

theorem covers_of_length {text : List Char} (h : text.length < UInt32.size) : Covers text := by
  intro front hfront
  have hle := hfront.length_le
  obtain ⟨hline, hcolumn⟩ := ({} : Spot).after_le front
  exact ⟨by dsimp only at hline; omega, by dsimp only at hcolumn; omega⟩

/-- In a text that is covered a later offset is at a later place. -/
theorem Covers.before_of_take {text : List Char} (h : Covers text) {i j : Nat} (hij : i < j)
    (hj : j ≤ text.length) (hseam : Seamless (text.take i) (text.drop i)) :
    (after {} (text.take i)).Before (after {} (text.take j)) := by
  rw [start_after, start_after,
    before_place (h _ (List.take_prefix ..)) (h _ (List.take_prefix ..))]
  exact Spot.before_of_take hij hj hseam

theorem fromZero_ofNat {n : Nat} (h : n + 1 < UInt32.size) : fromZero (.ofNat (n + 1)) = .ofNat n := by
  have hne : UInt32.ofNat (n + 1) ≠ 0 := by
    rw [ne_eq, ← UInt32.toNat_inj, UInt32.toNat_ofNat_of_lt' h]
    exact Nat.succ_ne_zero n
  rw [fromZero, if_neg hne, UInt32.ofNat_add]
  exact UInt32.add_sub_cancel ..

/-- In a text that positions cover, they are at the places that one would count. -/
theorem ofPosition_start_after {text front : List Char} (h : Position.Covers text)
    (hfront : front <+: text) :
    ofPosition (Position.start.after front) = (Spot.inSource front).place := by
  rw [Position.start_after, ofPosition, fromZero_ofNat (h front hfront).1,
    fromZero_ofNat (h front hfront).2]
  rfl

end Place
end EcmaPress

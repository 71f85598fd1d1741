import EcmaPress.Proofs.Reading

/-!
# What parsers do

When a parser succeeds, and with what: for each of the parsers that the grammar is made of, one
equivalence that takes a successful run apart and puts one together.
-/

namespace EcmaPress
namespace Parser

variable {α β : Type} {c c' : Cursor}

theorem bind_eq_ok {f : Parser α} {g : α → Parser β} {y : β} :
    (f >>= g) c = .ok (y, c') ↔ ∃ x m, f c = .ok (x, m) ∧ g x m = .ok (y, c') := by
  have hbind : (f >>= g) c = (f c >>= fun p => g p.1 p.2) := rfl
  rw [hbind]
  cases f c with
  | error e => simp [Bind.bind, Except.bind]
  | ok p => simp [Bind.bind, Except.bind, Prod.ext_iff, and_assoc]

theorem map_eq_ok {f : α → β} {p : Parser α} {y : β} :
    (f <$> p) c = .ok (y, c') ↔ ∃ x, p c = .ok (x, c') ∧ f x = y := by
  have hmap : (f <$> p) c = (p c >>= fun q => .ok (f q.1, q.2)) := rfl
  rw [hmap]
  cases p c with
  | error e => simp [Bind.bind, Except.bind]
  | ok q =>
    simp only [Bind.bind, Except.bind, Except.ok.injEq, Prod.ext_iff]
    constructor
    · rintro ⟨rfl, rfl⟩
      exact ⟨q.1, ⟨rfl, rfl⟩, rfl⟩
    · rintro ⟨x, ⟨rfl, rfl⟩, rfl⟩
      exact ⟨rfl, rfl⟩

@[simp] theorem peek_bind {g : Token → Parser β} : (peek >>= g) c = g c.token c := rfl

theorem pure_eq_ok {x y : α} : (pure x : Parser α) c = .ok (y, c') ↔ x = y ∧ c = c' := by
  have hpure : (pure x : Parser α) c = .ok (x, c) := rfl
  rw [hpure]
  simp

theorem advance_eq_ok {t : Token} : advance c = .ok (t, c') ↔ t = c.token ∧ c.next = .ok c' := by
  unfold advance
  cases h : c.next <;> simp [eq_comm]

theorem rescanRegex_eq_ok {x : Unit} : rescanRegex c = .ok (x, c') ↔ c.asRegex = .ok c' := by
  unfold rescanRegex
  cases h : c.asRegex <;> simp

theorem fail_eq_ok {fault : Fault} {x : α} : (fail fault : Parser α) c = .ok (x, c') ↔ False := by
  simp [fail]

theorem unexpected_eq_ok {x : α} : (unexpected : Parser α) c = .ok (x, c') ↔ False := by
  simp [unexpected]

theorem throw_eq_ok {e : SyntaxError} {x : α} :
    (throw e : Parser α) c = .ok (x, c') ↔ False := by
  have hthrow : (throw e : Parser α) c = .error e := rfl
  simp [hthrow]

theorem ite_eq_ok {p : Prop} [Decidable p] {f g : Parser α} {x : α} :
    (if p then f else g) c = .ok (x, c') ↔
      (p ∧ f c = .ok (x, c')) ∨ (¬ p ∧ g c = .ok (x, c')) := by
  split <;> simp [*]

theorem expect_eq_ok {text : String} {t : Token} :
    expect text c = .ok (t, c') ↔ c.token.is text = true ∧ t = c.token ∧ c.next = .ok c' := by
  simp only [expect, peek_bind, ite_eq_ok, advance_eq_ok, unexpected_eq_ok, and_false, or_false]

theorem eat_eq_ok {text : String} {eaten : Bool} :
    eat text c = .ok (eaten, c') ↔
      (c.token.is text = true ∧ eaten = true ∧ c.next = .ok c') ∨
        (c.token.is text = false ∧ eaten = false ∧ c' = c) := by
  simp only [eat, peek_bind, ite_eq_ok, bind_eq_ok, advance_eq_ok, pure_eq_ok, Bool.not_eq_true]
  constructor
  · rintro (⟨his, t, m, ⟨-, hnext⟩, rfl, rfl⟩ | ⟨his, rfl, rfl⟩)
    · exact .inl ⟨his, rfl, hnext⟩
    · exact .inr ⟨his, rfl, rfl⟩
  · rintro (⟨his, rfl, hnext⟩ | ⟨his, rfl, rfl⟩)
    · exact .inl ⟨his, _, _, ⟨rfl, hnext⟩, rfl, rfl⟩
    · exact .inr ⟨his, rfl, rfl⟩

theorem identifier_eq_ok {id : Identifier} :
    identifier c = .ok (id, c') ↔
      c.token.isIdentifier = true ∧ id = ⟨c.token.text, c.token.pos⟩ ∧ c.next = .ok c' := by
  simp only [identifier, peek_bind, ite_eq_ok, bind_eq_ok, advance_eq_ok, pure_eq_ok,
    unexpected_eq_ok, and_false, or_false]
  constructor
  · rintro ⟨hid, t, m, ⟨rfl, hnext⟩, rfl, rfl⟩
    exact ⟨hid, rfl, hnext⟩
  · rintro ⟨hid, rfl, hnext⟩
    exact ⟨hid, _, _, ⟨rfl, hnext⟩, rfl, rfl⟩

/-! ### Signs at the front -/

theorem advance_bind_eq_ok {g : Token → Parser β} {y : β} :
    (advance >>= g) c = .ok (y, c') ↔ ∃ m, c.next = .ok m ∧ g c.token m = .ok (y, c') := by
  simp only [bind_eq_ok, advance_eq_ok]
  constructor
  · rintro ⟨_, m, ⟨rfl, hnext⟩, h⟩
    exact ⟨m, hnext, h⟩
  · rintro ⟨m, hnext, h⟩
    exact ⟨_, m, ⟨rfl, hnext⟩, h⟩

theorem expect_bind_eq_ok {text : String} {g : Token → Parser β} {y : β} :
    (expect text >>= g) c = .ok (y, c') ↔
      c.token.is text = true ∧ ∃ m, c.next = .ok m ∧ g c.token m = .ok (y, c') := by
  simp only [bind_eq_ok, expect_eq_ok]
  constructor
  · rintro ⟨_, m, ⟨his, rfl, hnext⟩, h⟩
    exact ⟨his, m, hnext, h⟩
  · rintro ⟨his, m, hnext, h⟩
    exact ⟨_, m, ⟨his, rfl, hnext⟩, h⟩

theorem eat_bind_eq_ok {text : String} {g : Bool → Parser β} {y : β} :
    (eat text >>= g) c = .ok (y, c') ↔
      (c.token.is text = true ∧ ∃ m, c.next = .ok m ∧ g true m = .ok (y, c')) ∨
        (c.token.is text = false ∧ g false c = .ok (y, c')) := by
  simp only [bind_eq_ok, eat_eq_ok]
  constructor
  · rintro ⟨_, m, ⟨his, rfl, hnext⟩ | ⟨his, rfl, rfl⟩, h⟩
    · exact .inl ⟨his, m, hnext, h⟩
    · exact .inr ⟨his, h⟩
  · rintro (⟨his, m, hnext, h⟩ | ⟨his, h⟩)
    · exact ⟨true, m, .inl ⟨his, rfl, hnext⟩, h⟩
    · exact ⟨false, c, .inr ⟨his, rfl, rfl⟩, h⟩

/-- A part with a sign before it is there just where the sign is. -/
theorem ifEat_eq_some {text : String} {part : Parser α} {x : α} :
    (do if ← eat text then return some (← part) else return none : Parser (Option α)) c =
        .ok (some x, c') ↔
      c.token.is text = true ∧ ∃ m, c.next = .ok m ∧ part m = .ok (x, c') := by
  constructor
  · intro h
    obtain ⟨his, m, hnext, h⟩ | ⟨-, h⟩ := eat_bind_eq_ok.mp h
    · obtain ⟨y, n, hpart, h⟩ := bind_eq_ok.mp h
      obtain ⟨heq, rfl⟩ := pure_eq_ok.mp h
      exact ⟨his, m, hnext, Option.some.inj heq ▸ hpart⟩
    · cases (pure_eq_ok.mp h).1
  · rintro ⟨his, m, hnext, hpart⟩
    exact eat_bind_eq_ok.mpr (.inl ⟨his, m, hnext,
      bind_eq_ok.mpr ⟨x, c', hpart, pure_eq_ok.mpr ⟨rfl, rfl⟩⟩⟩)

theorem ifEat_eq_none {text : String} {part : Parser α} :
    (do if ← eat text then return some (← part) else return none : Parser (Option α)) c =
        .ok (none, c') ↔ c.token.is text = false ∧ c = c' := by
  constructor
  · intro h
    obtain ⟨his, m, hnext, h⟩ | ⟨his, h⟩ := eat_bind_eq_ok.mp h
    · obtain ⟨y, n, hpart, h⟩ := bind_eq_ok.mp h
      cases (pure_eq_ok.mp h).1
    · exact ⟨his, (pure_eq_ok.mp h).2⟩
  · rintro ⟨his, rfl⟩
    exact eat_bind_eq_ok.mpr (.inr ⟨his, pure_eq_ok.mpr ⟨rfl, rfl⟩⟩)

theorem identifier_bind_eq_ok {g : Identifier → Parser β} {y : β} :
    (identifier >>= g) c = .ok (y, c') ↔ c.token.isIdentifier = true ∧
      ∃ m, c.next = .ok m ∧ g ⟨c.token.text, c.token.pos⟩ m = .ok (y, c') := by
  simp only [bind_eq_ok, identifier_eq_ok]
  constructor
  · rintro ⟨_, m, ⟨hid, rfl, hnext⟩, h⟩
    exact ⟨hid, m, hnext, h⟩
  · rintro ⟨hid, m, hnext, h⟩
    exact ⟨_, m, ⟨hid, rfl, hnext⟩, h⟩

theorem semicolon_eq_ok {x : Unit} :
    semicolon c = .ok (x, c') ↔
      (c.token.is ";" = true ∧ c.next = .ok c') ∨
        (c.token.is ";" = false ∧ c' = c ∧
          (c.token.is "\x7d" || c.token.isEnd || c.token.newlineBefore) = true) := by
  simp only [semicolon, bind_eq_ok, eat_eq_ok, ite_eq_ok, peek_bind, pure_eq_ok, unexpected_eq_ok,
    and_false, or_false]
  constructor
  · rintro ⟨eaten, m, ⟨his, rfl, hnext⟩ | ⟨his, rfl, rfl⟩, ⟨heaten, -, rfl⟩ | ⟨heaten, hrest⟩⟩
    · exact .inl ⟨his, hnext⟩
    · simp at heaten
    · simp at heaten
    · exact .inr ⟨his, hrest.2.2.symm, hrest.1⟩
  · rintro (⟨his, hnext⟩ | ⟨his, rfl, hrest⟩)
    · exact ⟨true, _, .inl ⟨his, rfl, hnext⟩, .inl ⟨rfl, trivial, rfl⟩⟩
    · exact ⟨false, _, .inr ⟨his, rfl, rfl⟩, .inr ⟨by simp, hrest, trivial, rfl⟩⟩

/-! ### Loops -/

theorem many_nil {step : Parser (Option α)} :
    many step c = .ok ([], c') ↔ step c = .ok (none, c') := by
  rw [many]
  split
  · next h => simp [h]
  · next h => simp [h]
  · next h =>
    rw [h]
    split
    · split <;> simp
    · simp

theorem many_cons {step : Parser (Option α)} {x : α} {xs : List α} :
    many step c = .ok (x :: xs, c') ↔
      ∃ m, step c = .ok (some x, m) ∧ m.input.size < c.input.size ∧
        many step m = .ok (xs, c') := by
  rw [many]
  split
  · next h => simp [h]
  · next h => simp [h]
  · next y m h =>
    simp only [h, Except.ok.injEq, Prod.mk.injEq, Option.some.injEq]
    split
    · next hsize =>
      split
      · next herror =>
        simp only [reduceCtorEq, false_iff]
        rintro ⟨m', ⟨rfl, rfl⟩, -, hrest⟩
        rw [herror] at hrest
        cases hrest
      · next ys m'' hrest =>
        simp only [Except.ok.injEq, Prod.mk.injEq, List.cons.injEq]
        constructor
        · rintro ⟨⟨rfl, rfl⟩, rfl⟩
          exact ⟨m, ⟨rfl, rfl⟩, hsize, hrest⟩
        · rintro ⟨m', ⟨rfl, rfl⟩, -, hrest'⟩
          rw [hrest] at hrest'
          simp only [Except.ok.injEq, Prod.mk.injEq] at hrest'
          exact ⟨⟨rfl, hrest'.1⟩, hrest'.2⟩
    · next hsize =>
      simp only [reduceCtorEq, false_iff]
      rintro ⟨m', ⟨-, rfl⟩, hsize', -⟩
      exact hsize hsize'

/-- A loop ends where there are no more items. -/
theorem many_end {step : Parser (Option α)} {xs : List α} (h : many step c = .ok (xs, c')) :
    ∃ m, step m = .ok (none, c') := by
  induction xs generalizing c with
  | nil => exact ⟨c, many_nil.mp h⟩
  | cons x xs ih =>
    obtain ⟨m, -, -, hrest⟩ := many_cons.mp h
    exact ih hrest

end Parser
end EcmaPress

import EcmaPress.Proofs.Steps

/-!
# What parsers ensure

A property that all answers of a parser have, whatever the text, follows from the properties that
its parts ensure.
-/

namespace EcmaPress
namespace Parser

variable {α β : Type}

/-- Whatever a parser answers has a property. -/
def Ensures (parser : Parser α) (P : α → Prop) : Prop :=
  ∀ c x c', parser c = .ok (x, c') → P x

namespace Ensures

variable {parser : Parser α} {P : α → Prop} {Q : β → Prop}

theorem pure {x : α} (h : P x) : (Pure.pure x : Parser α).Ensures P := by
  intro c y c' hok
  obtain ⟨rfl, -⟩ := pure_eq_ok.mp hok
  exact h

theorem imp {Q : α → Prop} (h : parser.Ensures P) (hPQ : ∀ x, P x → Q x) : parser.Ensures Q :=
  fun c x c' hok => hPQ x (h c x c' hok)

theorem fail {fault : Fault} : (Parser.fail fault).Ensures P :=
  fun _ _ _ hok => (fail_eq_ok.mp hok).elim

theorem unexpected : Parser.unexpected.Ensures P :=
  fun _ _ _ hok => (unexpected_eq_ok.mp hok).elim

theorem throw {e : SyntaxError} : (throw e : Parser α).Ensures P :=
  fun _ _ _ hok => (throw_eq_ok.mp hok).elim

theorem bind {f : α → Parser β} (h : parser.Ensures P) (hf : ∀ x, P x → (f x).Ensures Q) :
    (parser >>= f).Ensures Q := by
  intro c y c' hok
  obtain ⟨x, m, hx, hy⟩ := bind_eq_ok.mp hok
  exact hf x (h c x m hx) m y c' hy

/-- What the first parser answers does not matter. -/
theorem andThen {f : α → Parser β} (hf : ∀ x, (f x).Ensures Q) : (parser >>= f).Ensures Q :=
  bind (P := fun _ => True) (fun _ _ _ _ => trivial) fun x _ => hf x

/-- Each branch may rely on the side of the condition that it stands on. -/
theorem branch {b : Prop} [Decidable b] {parser' : Parser α} (h : b → parser.Ensures P)
    (h' : ¬ b → parser'.Ensures P) : (if b then parser else parser').Ensures P := by
  split
  · next hb => exact h hb
  · next hb => exact h' hb

theorem ite {b : Prop} [Decidable b] {parser' : Parser α} (h : parser.Ensures P)
    (h' : parser'.Ensures P) : (if b then parser else parser').Ensures P :=
  branch (fun _ => h) fun _ => h'

/-- An answer in a wrapping, as parsers of optional parts give it. -/
theorem some (h : parser.Ensures P) :
    (parser >>= fun x => Pure.pure (Option.some x)).Ensures fun part => ∀ x ∈ part, P x :=
  h.bind fun x hx => .pure fun y hy => by
    obtain rfl : x = y := Option.some.inj hy
    exact hx

theorem none : (Pure.pure Option.none : Parser (Option α)).Ensures fun part => ∀ x ∈ part, P x :=
  .pure fun _ hx => nomatch hx

theorem many {step : Parser (Option α)} (h : step.Ensures fun part => ∀ x ∈ part, P x) :
    (many step).Ensures fun xs => ∀ x ∈ xs, P x := by
  intro c xs c' hok
  induction xs generalizing c with
  | nil => exact fun x hx => nomatch hx
  | cons x xs ih =>
    obtain ⟨m, hfirst, -, hrest⟩ := many_cons.mp hok
    exact List.forall_mem_cons.mpr ⟨h c _ m hfirst x rfl, ih m hrest⟩

theorem separated (h : parser.Ensures P) : (separated parser).Ensures fun xs => ∀ x ∈ xs, P x :=
  h.bind fun _ hx => (many (andThen fun _ => ite h.some none)).bind fun _ hxs =>
    .pure (List.forall_mem_cons.mpr ⟨hx, hxs⟩)

theorem inParens (h : parser.Ensures P) : (inParens parser).Ensures fun xs => ∀ x ∈ xs, P x :=
  andThen fun _ => andThen fun _ => ite (.pure fun _ hx => nomatch hx)
    (h.separated.bind fun _ hxs => andThen fun _ => .pure hxs)

end Ensures
end Parser

end EcmaPress

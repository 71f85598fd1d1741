/-!
# Stretches of a text

A text of characters, or of bytes, cut at every occurrence of one of them. Nothing but the
separators is lost, and no stretch holds one.
-/

namespace EcmaPress

variable {α : Type} [DecidableEq α]

/-- The stretches between the separators of a text; there is one more of them. -/
def stretches (separator : α) : List α → List (List α)
  | [] => [[]]
  | c :: rest =>
    if c = separator then [] :: stretches separator rest
    else
      match stretches separator rest with
      | [] => [[c]]
      | first :: more => (c :: first) :: more

theorem stretches_eq_splitOn (separator : α) (text : List α) :
    stretches separator text = text.splitOn separator := by
  induction text with
  | nil => rfl
  | cons c rest ih =>
    rw [stretches, ih, List.splitOn_cons_eq_if_modifyHead]
    by_cases hc : c = separator
    · simp [hc]
    · cases hrest : rest.splitOn separator with
      | nil => exact absurd hrest (List.splitOn_ne_nil separator rest)
      | cons first more => simp [hc]

@[simp] theorem intercalate_stretches (separator : α) (text : List α) :
    [separator].intercalate (stretches separator text) = text := by
  rw [stretches_eq_splitOn, List.intercalate_splitOn]

theorem stretches_intercalate {separator : α} {parts : List (List α)} (hparts : parts ≠ [])
    (h : ∀ part ∈ parts, separator ∉ part) :
    stretches separator ([separator].intercalate parts) = parts := by
  rw [stretches_eq_splitOn, List.splitOn_intercalate separator h hparts]

/-- A separator ends a stretch. -/
theorem stretches_append_cons (separator : α) (text rest : List α) :
    stretches separator (text ++ separator :: rest) =
      stretches separator text ++ stretches separator rest := by
  simp only [stretches_eq_splitOn, List.splitOn_append_cons_self]

theorem notMem_of_mem_stretches {separator : α} {text stretch : List α}
    (h : stretch ∈ stretches separator text) : separator ∉ stretch := by
  induction text generalizing stretch with
  | nil => simp_all [stretches]
  | cons c rest ih =>
    rw [stretches] at h
    split at h
    · rcases List.mem_cons.mp h with rfl | hrest
      · exact List.not_mem_nil
      · exact ih hrest
    · next hc =>
      split at h
      · simp_all [eq_comm]
      · next first more hsplit =>
        rcases List.mem_cons.mp h with rfl | hmore
        · have := ih (hsplit ▸ List.mem_cons_self : first ∈ stretches separator rest)
          simp_all [eq_comm]
        · exact ih (hsplit ▸ List.mem_cons_of_mem first hmore)

end EcmaPress

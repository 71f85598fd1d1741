/-!
# Similarity of words

How much two words have in common, as a fraction. Letters of the two words match if they are
equal and about as far from the start, each letter taken once; the measure is the mean of the
share of the first word that matches, the share of the second, and the share of the matches that
come in the same order.
-/

namespace EcmaPress
namespace Similarity

/-- The position of the first free letter that equals `c` between two positions. -/
def findFree (c : Char) (low high : Nat) (other : List Char) (taken : List Nat) : Option Nat :=
  (other.zipIdx.find? fun (d, j) => low ≤ j && j ≤ high && c = d && !taken.contains j).map Prod.snd

/-- The matches of the letters of a word, each with the position of its match in `other`. -/
def matchings (reach : Nat) (other : List Char) :
    List (Char × Nat) → List Nat → List (Char × Nat)
  | [], _ => []
  | (c, i) :: rest, taken =>
    match findFree c (i - reach) (i + reach) other taken with
    | some j => (c, j) :: matchings reach other rest (j :: taken)
    | none => matchings reach other rest taken

/-- The similarity of two words, as a numerator and a denominator. -/
def score (word other : List Char) : Nat × Nat :=
  let reach := max word.length other.length / 2 - 1
  let found := matchings reach other word.zipIdx []
  let count := found.length
  if count = 0 then (if word.isEmpty && other.isEmpty then 1 else 0, 1)
  else
    let inOrder := (other.zipIdx.filter fun (_, j) => (found.map Prod.snd).contains j).map Prod.fst
    let swapped := ((found.map Prod.fst).zip inOrder).countP fun (c, d) => c ≠ d
    let m := word.length
    let n := other.length
    (count * count * n + count * count * m + (count - swapped / 2) * m * n, 3 * m * n * count)

/-- Whether one fraction is at most another. -/
def atMost (a b : Nat × Nat) : Bool :=
  a.1 * b.2 ≤ b.1 * a.2

/-- The value whose word is the most similar, the last one of several, if the similarity is more
than seven tenths. -/
def best? {α : Type} (word : String) (name : α → String) (values : List α) : Option α :=
  let scored := values.map fun value => (score word.toList (name value).toList, value)
  let near := scored.filter fun (s, _) => !atMost s (7, 10)
  (near.foldl (fun best (s, value) =>
    match best with
    | some (t, _) => if atMost t s then some (s, value) else best
    | none => some (s, value)) none).map Prod.snd

end Similarity
end EcmaPress

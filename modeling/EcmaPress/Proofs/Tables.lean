import EcmaPress.Proofs.NewNames
import EcmaPress.Proofs.Scopes
import Mathlib.Data.List.Nodup
import Mathlib.Data.List.Perm.Subperm

/-!
# The tables of new names

Every name that a scope binds gets a new name of its own, unless the scope is the global one or
names are looked up in it by their spelling. The new names of a scope differ from what all names
that occur inside it and are bound outside it are called.
-/

namespace EcmaPress

/-! ### Fresh names -/

/-- There are enough short names. -/
theorem length_freshNames (taken : List String) (count : Nat) :
    (freshNames taken count).length = count := by
  have hpassed : (((List.range (count + taken.length)).map shortName).filter
      fun name => taken.contains name).length ≤ taken.length := by
    refine (List.Nodup.subperm ((nodup_shortNames _).filter _) fun name hname => ?_).length_le
    simpa using (List.mem_filter.mp hname).2
  have hall := List.length_eq_length_filter_add (l := (List.range (count + taken.length)).map shortName)
    fun name => taken.contains name
  rw [List.length_map, List.length_range] at hall
  rw [freshNames, List.length_take]
  omega

theorem nodup_freshNames (taken : List String) (count : Nat) : (freshNames taken count).Nodup :=
  ((nodup_shortNames _).filter _).sublist (List.take_sublist ..)

/-- Enough short names are as good as more of them. -/
theorem freshNames_eq_take {taken : List String} {n : Nat} (h : taken.length ≤ n) (count : Nat) :
    freshNames taken count =
      (((List.range (count + n)).map shortName).filter (!taken.contains ·)).take count := by
  obtain ⟨more, rfl⟩ := Nat.exists_eq_add_of_le h
  have hrange : List.range (count + (taken.length + more)) = List.range (count + taken.length) ++
      (List.range more).map (count + taken.length + ·) := by
    rw [← Nat.add_assoc, List.range_add]
  have hlen := length_freshNames taken count
  rw [freshNames, List.length_take] at hlen
  rw [hrange, List.map_append, List.filter_append, List.take_append_of_le_length (by omega), freshNames]

/-- The order in which names are taken does not matter. -/
theorem freshNames_congr {taken taken' : List String} (h : ∀ name, name ∈ taken ↔ name ∈ taken')
    (count : Nat) : freshNames taken count = freshNames taken' count := by
  rw [freshNames_eq_take (Nat.le_max_left taken.length taken'.length),
    freshNames_eq_take (Nat.le_max_right taken.length taken'.length)]
  have hsame : taken.contains = taken'.contains := funext fun name => by
    rw [Bool.eq_iff_iff, List.contains_iff_mem, List.contains_iff_mem, h]
  rw [hsame]

/-! ### Look-ups -/

section

variable {keys values : List String} {key key' value : String}

/-- Each key has its own value. -/
theorem map_lookup_zip (hlen : keys.length = values.length) (hnodup : keys.Nodup) :
    keys.map (fun key => ((keys.zip values).lookup key).getD key) = values := by
  induction keys generalizing values with
  | nil => exact (List.eq_nil_of_length_eq_zero hlen.symm).symm
  | cons first keys ih =>
    cases values with
    | nil => simp at hlen
    | cons value values =>
      obtain ⟨hnew, hrest⟩ := List.nodup_cons.mp hnodup
      rw [List.map_cons, List.zip_cons_cons, List.lookup_cons_self, Option.getD_some]
      refine congrArg (value :: ·) (Eq.trans ?_ (ih (by simpa using hlen) hrest))
      refine List.map_congr_left fun key hkey => ?_
      have hne : (key == first) = false := beq_eq_false_iff_ne.mpr fun heq => hnew (heq ▸ hkey)
      rw [List.lookup_cons, hne]

end

/-- Where each entry of an array is made from those before it, it is made from the entries that the
whole array has there. -/
theorem foldl_push {α β : Type} (f : Array β → α → β) (xs : List α) (start all : Array β)
    (hall : xs.foldl (fun entries x => entries.push (f entries x)) start = all) :
    (∀ m < start.size, all[m]? = start[m]?) ∧
      ∀ n x, xs[n]? = some x → ∃ earlier : Array β, earlier.size = start.size + n ∧
        (∀ m < start.size + n, earlier[m]? = all[m]?) ∧ all[start.size + n]? = some (f earlier x) := by
  induction xs generalizing start with
  | nil =>
    subst hall
    exact ⟨fun _ _ => rfl, fun n x h => by simp at h⟩
  | cons first xs ih =>
    obtain ⟨hkeep, hentries⟩ := ih (start.push (f start first)) hall
    rw [Array.size_push] at hkeep hentries
    have hstart : ∀ m < start.size, all[m]? = start[m]? := fun m hm => by
      rw [hkeep m (by omega), Array.getElem?_push, if_neg (Nat.ne_of_lt hm)]
    refine ⟨hstart, fun n x hx => ?_⟩
    cases n with
    | zero =>
      obtain rfl : first = x := by simpa using hx
      refine ⟨start, rfl, fun m hm => (hstart m hm).symm, ?_⟩
      exact (hkeep start.size (by omega)).trans (by simp)
    | succ n =>
      have hentry := hentries n x (by simpa using hx)
      rwa [Nat.add_assoc, Nat.add_comm 1 n] at hentry

/-! ### Tables -/

/-- Whether the names of a scope stay as they are. -/
def Scope.isFixed (scope : Scope) : Bool :=
  scope.kind.isNone || scope.dynamic

namespace Scoping

variable {s : Scoping} {reserved : List String} {n : Nat} {scope : Scope}

/-- The table of a scope is made from the tables of the scopes before it. -/
theorem getElem?_tables (reserved : List String) (h : s.scopes[n]? = some scope) : ∃ earlier : Array NameTable,
    earlier.size = n ∧ (∀ m < n, earlier[m]? = (s.tables reserved)[m]?) ∧
      (s.tables reserved)[n]? = some (table s.resolved reserved earlier scope) := by
  have hfold := (foldl_push (table s.resolved reserved) s.scopes.toList #[] (s.tables reserved)
    (Array.foldl_toList ..)).2 n scope (by simpa using h)
  simpa using hfold

/-- What the names are called that a scope must avoid. -/
def avoided (s : Scoping) (reserved : List String) (n : Nat) : List String :=
  (outer s.resolved n).map fun (binding, name) => newName (s.tables reserved) binding name

/-- The new names of a scope that gets some, in the order of the names that it binds. -/
def fresh (s : Scoping) (reserved : List String) (n : Nat) : List String :=
  freshNames ((reserved ++ s.avoided reserved n).eraseDups) (s.bound n).length

/-- Whatever occurs inside a scope and is bound outside it is bound in a scope before it. -/
def Outward (s : Scoping) : Prop :=
  ∀ n, ∀ entry ∈ outer s.resolved n, ∀ m ∈ entry.1, m < n

/-- The table of a scope that gets new names. -/
theorem getElem?_tables_loose (houtward : s.Outward) (h : s.scopes[n]? = some scope)
    (hloose : scope.isFixed = false) :
    (s.tables reserved)[n]? = some ((s.bound n).zip (s.fresh reserved n)) := by
  obtain ⟨earlier, hsize, hsame, htable⟩ := getElem?_tables reserved h
  have havoided : (outer s.resolved n).map (fun (binding, name) => newName earlier binding name) =
      s.avoided reserved n := by
    refine List.map_congr_left fun (binding, name) hmem => ?_
    cases binding with
    | none => rfl
    | some m => simp only [newName, hsame m (houtward n _ hmem m rfl)]
  have hnew : ¬(scope.kind.isNone || scope.dynamic) = true := Bool.eq_false_iff.mp hloose
  rw [htable, table, if_neg hnew, hsize, havoided, ← bound_eq h]
  rfl

theorem newName_fixed (h : s.scopes[n]? = some scope) (hfixed : scope.isFixed = true) (name : String) :
    newName (s.tables reserved) (some n) name = name := by
  obtain ⟨earlier, -, -, htable⟩ := getElem?_tables reserved h
  have hempty : table s.resolved reserved earlier scope = [] := if_pos hfixed
  simp [newName, htable, hempty]

/-- The names of a scope that gets new ones are called so, in their order. -/
theorem map_newName (houtward : s.Outward) (h : s.scopes[n]? = some scope)
    (hloose : scope.isFixed = false) (hnodup : scope.bound.Nodup) :
    (s.bound n).map (newName (s.tables reserved) (some n)) = s.fresh reserved n := by
  refine Eq.trans (List.map_congr_left fun name _ => ?_)
    (map_lookup_zip (length_freshNames _ _).symm (bound_eq h ▸ hnodup))
  simp [newName, getElem?_tables_loose houtward h hloose]

/-- No two names of a scope are called the same. -/
theorem newName_injective (houtward : s.Outward) (h : s.scopes[n]? = some scope)
    (hnodup : scope.bound.Nodup) {x y : String} (hx : x ∈ s.bound n) (hy : y ∈ s.bound n)
    (heq : newName (s.tables reserved) (some n) x = newName (s.tables reserved) (some n) y) :
    x = y := by
  cases hfixed : scope.isFixed with
  | true => rwa [newName_fixed h hfixed, newName_fixed h hfixed] at heq
  | false =>
    refine List.inj_on_of_nodup_map ?_ hx hy heq
    rw [map_newName houtward h hfixed hnodup]
    exact nodup_freshNames _ _

/-- A new name of a scope differs from what any name that the scope must avoid is called. -/
theorem newName_ne_avoided (houtward : s.Outward) (h : s.scopes[n]? = some scope)
    (hloose : scope.isFixed = false) (hnodup : scope.bound.Nodup) {x : String} (hx : x ∈ s.bound n) :
    newName (s.tables reserved) (some n) x ∉ s.avoided reserved n := by
  have hfresh : newName (s.tables reserved) (some n) x ∈ s.fresh reserved n := by
    rw [← map_newName houtward h hloose hnodup]
    exact List.mem_map_of_mem hx
  intro hmem
  refine (mem_freshNames hfresh).1 ?_
  rw [List.mem_eraseDups]
  exact List.mem_append_right _ hmem

/-- New names depend on which names are reserved, not on their order. -/
theorem renames_congr {reserved reserved' : List String}
    (h : ∀ name, name ∈ reserved ↔ name ∈ reserved') (s : Scoping) :
    s.renames reserved = s.renames reserved' := by
  have htable : table s.resolved reserved = table s.resolved reserved' := by
    funext tables scope
    have hfresh (avoided : List String) (count : Nat) :
        freshNames (reserved ++ avoided).eraseDups count =
          freshNames (reserved' ++ avoided).eraseDups count :=
      freshNames_congr (fun name => by simp only [List.mem_eraseDups, List.mem_append, h]) count
    simp only [table, hfresh]
  rw [renames, renames, tables, tables, htable]

end Scoping
end EcmaPress

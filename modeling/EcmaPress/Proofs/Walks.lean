import EcmaPress.Proofs.Paths
import EcmaPress.Run.World
import Mathlib.Data.List.Basic

/-!
# Walks

A path is a walk through directories: names lead down, `..` leads up, and at the root a step up
leads nowhere. Folding the dots of a path away keeps the place where its walk ends, but a step up
that is taken at the root is not dropped: it stays in the path until another one takes it away. So
two paths of one file compare equal if both or neither of them take an odd number of such steps, and
a source map that names the output is told from one that has a file of its own in these cases only.
-/

namespace EcmaPress

/-- Where a walk from the root has come to: the names that lead there, the last one first, and how
many steps up were taken at the root, where they lead nowhere. -/
structure Walk where
  place : Way
  vain : Nat
deriving DecidableEq, Repr

namespace Walk

/-- The walk that stands at the root. -/
def start : Walk := ⟨[], 0⟩

/-- A walk with one more step. -/
def step (walk : Walk) : Path.Component → Walk
  | .root => start
  | .here => walk
  | .up =>
    match walk.place with
    | [] => { walk with vain := walk.vain + 1 }
    | _ :: place => { walk with place }
  | .name bytes => { walk with place := bytes :: walk.place }

/-- A walk that goes on along a path. -/
def along (walk : Walk) (path : Path) : Walk :=
  path.components.foldl step walk

/-- Whether one step up that leads nowhere is left when these steps take each other away. -/
def Strays (walk : Walk) : Prop :=
  walk.vain % 2 = 1

instance (walk : Walk) : Decidable walk.Strays :=
  inferInstanceAs (Decidable (_ = _))

end Walk

/-- The walk along a path that begins in `base`. -/
def Path.walk (base path : Path) : Walk :=
  (Walk.start.along base).along path

/-- The way from the root to what a path names, seen from `base`. -/
def Path.place (base path : Path) : Way :=
  (base.walk path).place.reverse

/-- The path that leads a way from the root. -/
def Path.ofWay (way : Way) : Path :=
  ⟨slash :: [slash].intercalate way⟩

namespace Walk

variable {walk : Walk}

/-! ### Steps of a walk -/

/-- The components of the path that a walk leaves when its dots are folded away. -/
def components (walk : Walk) : List Path.Component :=
  .root :: ((if walk.Strays then [.up] else []) ++ walk.place.reverse.map .name)

theorem reverse_components (walk : Walk) : walk.components.reverse =
    walk.place.map .name ++ ((if walk.Strays then [.up] else []) ++ [.root]) := by
  unfold components
  split <;> simp

/-- A component that is folded into the path of a walk is a step of the walk. -/
theorem fold_components (walk : Walk) {c : Path.Component} (hc : c ≠ .root) :
    Path.fold walk.components.reverse c = (walk.step c).components.reverse := by
  rw [reverse_components, reverse_components]
  obtain ⟨place, vain⟩ := walk
  cases c with
  | root => exact absurd rfl hc
  | here => rfl
  | name bytes => rfl
  | up =>
    cases place with
    | cons name place => rfl
    | nil =>
      rcases Nat.mod_two_eq_zero_or_one vain with heven | hodd
      · have hstrays : (vain + 1) % 2 = 1 := by omega
        simp [step, Strays, heven, hstrays, Path.fold]
      · have hstrays : (vain + 1) % 2 = 0 := by omega
        simp [step, Strays, hodd, hstrays, Path.fold]

theorem foldl_fold_components (walk : Walk) {cs : List Path.Component} (h : ∀ c ∈ cs, c.IsStep) :
    cs.foldl Path.fold walk.components.reverse = (cs.foldl step walk).components.reverse := by
  induction cs generalizing walk with
  | nil => rfl
  | cons c cs ih =>
    obtain ⟨hc, hcs⟩ := List.forall_mem_cons.mp h
    have hroot : c ≠ .root := by
      rintro rfl
      exact hc
    rw [List.foldl_cons, List.foldl_cons, fold_components walk hroot, ih _ hcs]

/-- A step of a walk is one of the system. -/
theorem place_step (walk : Walk) (c : Path.Component) :
    (walk.step c).place = Files.way.follow walk.place c := by
  obtain ⟨place, vain⟩ := walk
  cases c with
  | up => cases place <;> rfl
  | root | here | name => rfl

/-- Whether a walk has come by names only. -/
def IsNamed (walk : Walk) : Prop :=
  ∀ name ∈ walk.place, Path.IsName name

theorem isNamed_start : start.IsNamed :=
  List.forall_mem_nil _

theorem IsNamed.step (h : walk.IsNamed) {c : Path.Component} (hc : c.IsStep) :
    (walk.step c).IsNamed := by
  unfold IsNamed
  rw [place_step]
  cases c with
  | up => exact fun name hname => h name (List.mem_of_mem_tail hname)
  | name text => exact List.forall_mem_cons.mpr ⟨hc, h⟩
  | root | here => exact hc.elim

theorem IsNamed.foldl_step {cs : List Path.Component} (h : walk.IsNamed)
    (hcs : ∀ c ∈ cs, c.IsStep) : (cs.foldl Walk.step walk).IsNamed := by
  induction cs generalizing walk with
  | nil => exact h
  | cons c cs ih =>
    obtain ⟨hc, hcs⟩ := List.forall_mem_cons.mp hcs
    exact ih (h.step hc) hcs

/-! ### Paths of walks -/

/-- The path that a walk leaves when its dots are folded away. -/
def path (walk : Walk) : Path :=
  Path.ofComponents walk.components

theorem IsNamed.isStep (h : walk.IsNamed) :
    ∀ c ∈ (if walk.Strays then [.up] else []) ++ walk.place.reverse.map Path.Component.name,
      c.IsStep := by
  intro c hc
  rcases List.mem_append.mp hc with hup | hc
  · split at hup
    · rw [List.mem_singleton.mp hup]
      trivial
    · cases hup
  · obtain ⟨name, hname, rfl⟩ := List.mem_map.mp hc
    exact h name (List.mem_reverse.mp hname)

theorem IsNamed.components_path (h : walk.IsNamed) : walk.path.components = walk.components :=
  Path.components_ofComponents_root h.isStep

theorem IsNamed.path_inj {walk' : Walk} (h : walk.IsNamed) (h' : walk'.IsNamed) :
    walk.path = walk'.path ↔ walk.components = walk'.components := by
  refine ⟨fun hpath => ?_, congrArg Path.ofComponents⟩
  rw [← h.components_path, hpath, h'.components_path]

/-- Paths of walks that have the same components are written in the same way. -/
theorem IsNamed.same_path {walk' : Walk} (h : walk.IsNamed) (h' : walk'.IsNamed) :
    walk.path.same walk'.path = true ↔ walk.path = walk'.path := by
  rw [Path.same, decide_eq_true_iff, h.path_inj h', h.components_path, h'.components_path]

/-- A walk that does not stray leaves the path of its way. -/
theorem IsNamed.path_eq (h : walk.IsNamed) : walk.path = .ofWay
    ((if walk.Strays then [[Path.dot, Path.dot]] else []) ++ walk.place.reverse) := by
  have hnames : (walk.place.reverse.map Path.Component.name).map Path.Component.bytes =
      walk.place.reverse := by
    rw [List.map_map]
    exact List.map_id _
  have hbytes : walk.path.bytes = _ := Path.bytes_ofComponents_root h.isStep
  rw [Path.ofWay, Path.mk.injEq, hbytes, List.map_append, hnames]
  split <;> rfl

/-- The path of a walk leads to where the walk has come. -/
theorem IsNamed.way_path (h : walk.IsNamed) : Files.way walk.path = walk.place.reverse := by
  rw [Files.way, h.components_path, components, List.foldl_cons, List.foldl_append]
  have hup : ((if walk.Strays then [.up] else []).foldl Files.way.follow
      (Files.way.follow [] .root)) = [] := by
    split <;> rfl
  rw [hup, List.foldl_map]
  exact congrArg List.reverse (List.foldl_flip_cons_eq_append.trans (by simp))

theorem up_mem_components : .up ∈ walk.components ↔ walk.Strays := by
  unfold components
  split <;> simp [*]

/-- A path tells where its walk has come to, and whether it strays. -/
theorem components_inj {walk' : Walk} : walk.components = walk'.components ↔
    walk.place = walk'.place ∧ (walk.Strays ↔ walk'.Strays) := by
  constructor
  · intro h
    have hstrays : walk.Strays ↔ walk'.Strays := by
      rw [← up_mem_components, ← up_mem_components, h]
    simp only [components, hstrays, List.cons.injEq, true_and, List.append_cancel_left_eq] at h
    refine ⟨List.reverse_injective (List.map_injective_iff.mpr ?_ h), hstrays⟩
    exact fun _ _ hname => Path.Component.name.inj hname
  · rintro ⟨hplace, hstrays⟩
    simp only [components, hplace, hstrays]

end Walk

namespace Path

variable {base : Path}

/-! ### Paths seen from a directory -/

/-- A path that is joined to an absolute one is the root with the steps of its walk. -/
theorem exists_steps_join (hbase : base.isAbsolute = true) (path : Path) :
    ∃ cs, (∀ c ∈ cs, c.IsStep) ∧ (base.join path).components = .root :: cs ∧
      base.walk path = cs.foldl Walk.step .start := by
  cases hpath : path.isAbsolute with
  | true =>
    refine ⟨steps path.bytes, fun c => isStep_of_mem_steps, ?_, ?_⟩
    · rw [join, if_pos hpath, components_of_isAbsolute hpath]
    · rw [walk, Walk.along, components_of_isAbsolute hpath]
      rfl
  | false =>
    refine ⟨steps base.bytes ++ steps path.bytes, fun c hc => ?_, ?_, ?_⟩
    · exact (List.mem_append.mp hc).elim isStep_of_mem_steps isStep_of_mem_steps
    · rw [components_join hbase hpath, components_of_isAbsolute hbase]
      rfl
    · rw [walk, Walk.along, Walk.along, components_of_isAbsolute hbase, List.foldl_append]
      rcases components_of_not_isAbsolute hpath with h | h <;> rw [h] <;> rfl

theorem isNamed_walk (hbase : base.isAbsolute = true) (path : Path) : (base.walk path).IsNamed := by
  obtain ⟨cs, hcs, -, hwalk⟩ := exists_steps_join hbase path
  exact hwalk ▸ Walk.isNamed_start.foldl_step hcs

/-- Folding away the dots of a path leaves the path of its walk. -/
theorem absolutize_eq (hbase : base.isAbsolute = true) (path : Path) :
    base.absolutize path = (base.walk path).path := by
  obtain ⟨cs, hcs, hcomponents, hwalk⟩ := exists_steps_join hbase path
  have hfold := Walk.foldl_fold_components .start hcs
  rw [absolutize, hcomponents, hwalk, Walk.path]
  exact congrArg (fun above => ofComponents above) (by
    rw [List.foldl_cons]
    exact (congrArg List.reverse hfold).trans (List.reverse_reverse _))

/-- Folding away the dots of a path does not change where it leads. -/
theorem way_absolutize (hbase : base.isAbsolute = true) (path : Path) :
    Files.way (base.absolutize path) = base.place path := by
  rw [absolutize_eq hbase, (isNamed_walk hbase path).way_path, place]

/-- Two paths that are folded are one if they lead to one place and both or neither of them stray. -/
theorem absolutize_inj (hbase : base.isAbsolute = true) {path path' : Path} :
    base.absolutize path = base.absolutize path' ↔ base.place path = base.place path' ∧
      ((base.walk path).Strays ↔ (base.walk path').Strays) := by
  rw [place, place, List.reverse_inj, ← Walk.components_inj, absolutize_eq hbase,
    absolutize_eq hbase, (isNamed_walk hbase path).path_inj (isNamed_walk hbase path')]

end Path

end EcmaPress

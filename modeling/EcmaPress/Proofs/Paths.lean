import EcmaPress.Plan

/-!
# Bytes and components of paths

What a path is made of can be read off its bytes at the slashes, and bytes that are put together from
steps have these steps. So joining paths joins their components, and a path that has been put
together from a root and some steps is written in one way only.
-/

namespace EcmaPress
namespace Path

/-! ### Names -/

/-- Whether a stretch of a path is the name of something: it leads neither nowhere nor up. -/
def IsName (bytes : List UInt8) : Prop :=
  slash ∉ bytes ∧ isGap bytes = false ∧ bytes ≠ [dot, dot]

/-- A step along a path: up, or to something with a name. -/
def Component.IsStep : Component → Prop
  | .up => True
  | .name bytes => IsName bytes
  | .root | .here => False

namespace Component

theorem IsStep.slash_notMem {c : Component} (h : c.IsStep) : slash ∉ c.bytes := by
  cases c with
  | up => decide
  | name bytes => exact h.1
  | root | here => exact h.elim

theorem IsStep.not_isGap {c : Component} (h : c.IsStep) : isGap c.bytes = false := by
  cases c with
  | up => rfl
  | name bytes => exact h.2.1
  | root | here => exact h.elim

theorem IsStep.bytes_ne_nil {c : Component} (h : c.IsStep) : c.bytes ≠ [] := by
  intro hbytes
  have hgap := h.not_isGap
  rw [hbytes] at hgap
  cases hgap

end Component

/-! ### Steps along a path -/

/-- The steps that some bytes name, one for every stretch that leads somewhere. -/
def steps (bytes : List UInt8) : List Component :=
  Parts.names ⟨none, stretches slash bytes⟩

theorem steps_append_slash (bytes rest : List UInt8) :
    steps (bytes ++ slash :: rest) = steps bytes ++ steps rest := by
  simp only [steps, Parts.names, stretches_append_cons, List.filter_append, List.map_append]

theorem steps_slash (rest : List UInt8) : steps (slash :: rest) = steps rest := rfl

theorem steps_dot_slash (rest : List UInt8) : steps (dot :: slash :: rest) = steps rest := rfl

theorem isStep_of_mem_steps {bytes : List UInt8} {c : Component} (h : c ∈ steps bytes) : c.IsStep := by
  obtain ⟨stretch, hstretch, rfl⟩ := List.mem_map.mp h
  obtain ⟨hmem, hgap⟩ := List.mem_filter.mp hstretch
  split
  · trivial
  · next hup => exact ⟨notMem_of_mem_stretches hmem, by simpa using hgap, hup⟩

/-- The bytes of steps name these steps. -/
theorem steps_intercalate {cs : List Component} (h : ∀ c ∈ cs, c.IsStep) :
    steps ([slash].intercalate (cs.map Component.bytes)) = cs := by
  by_cases hcs : cs = []
  · subst hcs
    rfl
  have hslash : ∀ part ∈ cs.map Component.bytes, slash ∉ part := by
    intro part hpart
    obtain ⟨c, hc, rfl⟩ := List.mem_map.mp hpart
    exact (h c hc).slash_notMem
  have hkept : ∀ part ∈ cs.map Component.bytes, (!isGap part) = true := by
    intro part hpart
    obtain ⟨c, hc, rfl⟩ := List.mem_map.mp hpart
    simp [(h c hc).not_isGap]
  have hstep : ∀ c ∈ cs, (if c.bytes = [dot, dot] then .up else .name c.bytes) = c := by
    intro c hc
    cases c with
    | up => rfl
    | name bytes => exact if_neg (h _ hc).2.2
    | root | here => exact (h _ hc).elim
  rw [steps, Parts.names, stretches_intercalate (by simpa using hcs) hslash,
    List.filter_eq_self.mpr hkept, List.map_map]
  exact (List.map_congr_left hstep).trans (List.map_id cs)

/-! ### Components of a path -/

/-- A path has the components of its bytes, behind the root or the dot that the bytes begin with. -/
theorem components_eq (path : Path) :
    path.components = path.parts.head.toList ++ steps path.bytes := by
  unfold components parts
  generalize path.bytes = bytes
  fun_cases Parts.ofBytes bytes with
  | case1 hslash =>
    obtain ⟨rest, rfl⟩ := List.head?_eq_some_iff.mp hslash
    rw [steps_slash]
    rfl
  | case2 _ hdot =>
    subst hdot
    rfl
  | case3 _ _ hdot =>
    obtain ⟨rest, rfl⟩ := hdot
    rw [List.cons_append, List.cons_append, List.nil_append, steps_dot_slash, ← steps_slash]
    rfl
  | case4 => rfl

theorem isAbsolute_iff {path : Path} :
    path.isAbsolute = true ↔ ∃ rest, path.bytes = slash :: rest := by
  unfold isAbsolute parts
  rw [decide_eq_true_iff, ← List.head?_eq_some_iff]
  generalize path.bytes = bytes
  fun_cases Parts.ofBytes bytes with
  | case1 hslash => exact iff_of_true rfl hslash
  | case2 hslash | case3 hslash | case4 hslash => exact iff_of_false nofun hslash

theorem components_of_isAbsolute {path : Path} (h : path.isAbsolute = true) :
    path.components = .root :: steps path.bytes := by
  rw [components_eq, of_decide_eq_true h]
  rfl

/-- A path that is not absolute has the components of its bytes, perhaps behind a dot. -/
theorem components_of_not_isAbsolute {path : Path} (h : path.isAbsolute = false) :
    path.components = steps path.bytes ∨ path.components = .here :: steps path.bytes := by
  have hhead : path.parts.head = none ∨ path.parts.head = some .here := by
    unfold isAbsolute parts at *
    revert h
    fun_cases Parts.ofBytes path.bytes <;> simp
  rw [components_eq]
  rcases hhead with hhead | hhead
  · exact .inl (by rw [hhead]; rfl)
  · exact .inr (by rw [hhead]; rfl)

theorem isAbsolute_of_components {path : Path} {cs : List Component}
    (h : path.components = .root :: cs) : path.isAbsolute = true := by
  rw [← Bool.not_eq_false]
  intro hrelative
  rcases components_of_not_isAbsolute hrelative with hsteps | hsteps
  · have hroot : .root ∈ steps path.bytes := hsteps ▸ h ▸ List.mem_cons_self
    exact isStep_of_mem_steps hroot
  · cases hsteps.symm.trans h

/-! ### Joined paths -/

theorem bytes_join {base path : Path} (h : path.isAbsolute = false) :
    (base.join path).bytes = base.bytes ++ seam base ++ path.bytes := by
  rw [join, h, if_neg Bool.false_ne_true]

/-- A seam ends the steps of the path before it. -/
theorem steps_seam {base : Path} (h : base.bytes ≠ []) (bytes : List UInt8) :
    steps (base.bytes ++ seam base ++ bytes) = steps base.bytes ++ steps bytes := by
  unfold seam
  split
  · next hslash =>
    obtain ⟨front, last, hfront⟩ := (List.eq_nil_or_concat _).resolve_left h
    rw [List.concat_eq_append] at hfront
    obtain rfl : last = slash := by simpa [hfront] using hslash
    have hnil : steps [] = [] := rfl
    rw [hfront, List.append_nil, List.append_assoc, List.singleton_append, steps_append_slash,
      steps_append_slash, hnil, List.append_nil]
  · rw [List.append_assoc, List.singleton_append, steps_append_slash]

theorem bytes_ne_nil_of_isAbsolute {path : Path} (h : path.isAbsolute = true) : path.bytes ≠ [] := by
  obtain ⟨rest, hrest⟩ := isAbsolute_iff.mp h
  rintro hbytes
  simp [hbytes] at hrest

/-- A path that is joined to an absolute one goes on with its steps. -/
theorem components_join {base path : Path} (hbase : base.isAbsolute = true)
    (hpath : path.isAbsolute = false) :
    (base.join path).components = base.components ++ steps path.bytes := by
  have hbytes := @bytes_join base path hpath
  have habsolute : (base.join path).isAbsolute = true := by
    obtain ⟨rest, hrest⟩ := isAbsolute_iff.mp hbase
    rw [hrest, List.cons_append, List.cons_append] at hbytes
    exact isAbsolute_iff.mpr ⟨_, hbytes⟩
  rw [components_of_isAbsolute habsolute, components_of_isAbsolute hbase, hbytes,
    steps_seam (bytes_ne_nil_of_isAbsolute hbase), List.cons_append]

/-! ### Paths of components -/

theorem Component.IsStep.not_isAbsolute {c : Component} (h : c.IsStep) :
    isAbsolute ⟨c.bytes⟩ = false := by
  rw [Bool.eq_false_iff]
  intro habsolute
  obtain ⟨rest, hrest⟩ := isAbsolute_iff.mp habsolute
  have hbytes : c.bytes = slash :: rest := hrest
  exact h.slash_notMem (hbytes ▸ List.mem_cons_self)

/-- Behind a step comes a slash. -/
theorem seam_join {base : Path} {c : Component} (h : c.IsStep) :
    seam (base.join ⟨c.bytes⟩) = [slash] := by
  have hlast : (base.join ⟨c.bytes⟩).bytes.getLast? = some (c.bytes.getLast h.bytes_ne_nil) := by
    rw [bytes_join h.not_isAbsolute, List.getLast?_append,
      List.getLast?_eq_some_getLast h.bytes_ne_nil, Option.some_or]
  have hslash : c.bytes.getLast h.bytes_ne_nil ≠ slash :=
    ne_of_mem_of_not_mem (List.getLast_mem _) h.slash_notMem
  rw [seam, hlast, if_neg (by simpa using hslash)]

theorem bytes_foldl_join {cs : List Component} (h : ∀ c ∈ cs, c.IsStep) (base : Path) :
    (cs.foldl (fun path c => path.join ⟨c.bytes⟩) base).bytes =
      base.bytes ++
        if cs = [] then [] else seam base ++ [slash].intercalate (cs.map Component.bytes) := by
  induction cs generalizing base with
  | nil => simp
  | cons c cs ih =>
    obtain ⟨hc, hcs⟩ := List.forall_mem_cons.mp h
    rw [List.foldl_cons, ih hcs, bytes_join hc.not_isAbsolute, seam_join hc]
    by_cases hnil : cs = []
    · simp [hnil]
    · have hmap : cs.map Component.bytes ≠ [] := by simpa using hnil
      simp [hnil, List.intercalate_cons_of_ne_nil hmap]

/-- The path of some steps has a slash between any two of them. -/
theorem bytes_ofComponents {cs : List Component} (h : ∀ c ∈ cs, c.IsStep) :
    (ofComponents cs).bytes = [slash].intercalate (cs.map Component.bytes) := by
  rw [ofComponents, bytes_foldl_join h]
  by_cases hcs : cs = []
  · simp [hcs]
  · simp [hcs, seam]

/-- Steps from the root stand behind a slash. -/
theorem bytes_ofComponents_root {cs : List Component} (h : ∀ c ∈ cs, c.IsStep) :
    (ofComponents (.root :: cs)).bytes = slash :: [slash].intercalate (cs.map Component.bytes) := by
  have hroot : join ⟨[]⟩ ⟨Component.root.bytes⟩ = ⟨[slash]⟩ := rfl
  rw [ofComponents, List.foldl_cons, hroot, bytes_foldl_join h]
  by_cases hcs : cs = []
  · simp [hcs]
  · simp [hcs, seam]

theorem components_ofComponents_root {cs : List Component} (h : ∀ c ∈ cs, c.IsStep) :
    (ofComponents (.root :: cs)).components = .root :: cs := by
  have hbytes := bytes_ofComponents_root h
  rw [components_of_isAbsolute (isAbsolute_iff.mpr ⟨_, hbytes⟩), hbytes, steps_slash,
    steps_intercalate h]

theorem components_ofComponents {cs : List Component} (h : ∀ c ∈ cs, c.IsStep) :
    (ofComponents cs).components = cs := by
  cases cs with
  | nil => rfl
  | cons c cs =>
    -- The bytes begin with a stretch that leads somewhere, so neither with a slash nor with a dot.
    have hstretches : ∃ more, stretches slash (ofComponents (c :: cs)).bytes = c.bytes :: more := by
      rw [bytes_ofComponents h]
      refine ⟨_, stretches_intercalate (List.cons_ne_nil _ _) fun part hpart => ?_⟩
      obtain ⟨d, hd, rfl⟩ := List.mem_map.mp hpart
      exact (h d hd).slash_notMem
    have hhead : (ofComponents (c :: cs)).parts.head = none := by
      obtain ⟨more, hmore⟩ := hstretches
      have hgap := (h c List.mem_cons_self).not_isGap
      unfold parts
      generalize (ofComponents (c :: cs)).bytes = bytes at hmore
      fun_cases Parts.ofBytes bytes with
      | case1 hslash =>
        obtain ⟨rest, rfl⟩ := List.head?_eq_some_iff.mp hslash
        rw [← (List.cons.inj hmore).1] at hgap
        cases hgap
      | case2 _ hdot =>
        subst hdot
        rw [← (List.cons.inj hmore).1] at hgap
        cases hgap
      | case3 _ _ hdot =>
        obtain ⟨rest, rfl⟩ := hdot
        rw [← (List.cons.inj hmore).1] at hgap
        cases hgap
      | case4 => rfl
    rw [components_eq, hhead, bytes_ofComponents h, steps_intercalate h]
    rfl

end Path
end EcmaPress

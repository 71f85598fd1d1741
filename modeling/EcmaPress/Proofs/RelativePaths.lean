import EcmaPress.Proofs.PlannedFiles
import EcmaPress.Proofs.ShownTexts

/-!
# Relative paths

The way from a directory to a file climbs to the last directory that both have in common and goes
down from there. Seen from the directory it leads back to the file, and so does what is shown of a
path below a directory. In the form that source maps have it in, it leads back just if it is UTF-8.
The names of the sources in a map and the address of a map can then be traced back to their files.
-/

namespace EcmaPress
namespace Path

/-! ### Folding -/

/-- Names are added to what is above. -/
theorem foldl_fold_names (above : List Component) (names : Way) :
    (names.map .name).foldl fold above = (names.map Component.name).reverse ++ above := by
  induction names generalizing above with
  | nil => rfl
  | cons name names ih =>
    have hname : fold above (.name name) = .name name :: above := by cases above <;> rfl
    rw [List.map_cons, List.foldl_cons, hname, ih, List.reverse_cons, List.append_assoc]
    rfl

/-- The components that are left by a walk stay when they are folded. -/
theorem foldl_fold_walk (walk : Walk) :
    walk.components.foldl fold [] = walk.components.reverse := by
  have hroot : fold [] .root = [.root] := rfl
  have hup : fold [.root] .up = [.up, .root] := rfl
  unfold Walk.components
  generalize walk.place.reverse = names
  split <;> simp [hroot, hup, foldl_fold_names]

/-- Steps up remove what has been added last above the root. -/
theorem foldl_fold_ups {above : List Component} (h : .root ∉ above) {n : Nat}
    (hn : n ≤ above.length) :
    (List.replicate n .up).foldl fold (above ++ [.root]) = above.drop n ++ [.root] := by
  induction n generalizing above with
  | zero => rfl
  | succ n ih =>
    cases above with
    | nil => cases hn
    | cons c above =>
      have hc : fold (c :: above ++ [.root]) .up = above ++ [.root] := by
        cases c with
        | root => exact absurd List.mem_cons_self h
        | up | here | name => rfl
      rw [List.replicate_succ, List.foldl_cons, hc,
        ih (fun hroot => h (List.mem_cons_of_mem _ hroot)) (Nat.le_of_succ_le_succ hn)]
      rfl

/-- Steps up from the end of a walk leave the components that it has begun with. -/
theorem foldl_fold_climb (walk : Walk) {n : Nat} (hn : n + 1 ≤ walk.components.length) :
    (List.replicate (walk.components.length - (n + 1)) .up).foldl fold walk.components.reverse =
      (walk.components.take (n + 1)).reverse := by
  obtain ⟨cs, hcs, hroot⟩ : ∃ cs, walk.components = .root :: cs ∧ .root ∉ cs := by
    refine ⟨_, rfl, fun hroot => ?_⟩
    split at hroot <;> simp at hroot
  rw [hcs] at hn ⊢
  have hlength : (Component.root :: cs).length - (n + 1) = cs.length - n := Nat.add_sub_add_right ..
  have hkept : cs.length - (cs.length - n) = n := Nat.sub_sub_self (Nat.le_of_succ_le_succ hn)
  rw [hlength, List.reverse_cons, foldl_fold_ups (by simpa using hroot)
    (by rw [List.length_reverse]; exact Nat.sub_le ..), List.drop_reverse, hkept,
    List.take_succ_cons, List.reverse_cons]

/-! ### Addresses -/

namespace Component

/-- A component as an address tells it. -/
def restored : Component → Component
  | .name bytes => .name (Utf8.restore bytes)
  | .root => .root
  | .here => .here
  | .up => .up

theorem bytes_restored (c : Component) : c.restored.bytes = Utf8.restore c.bytes := by
  cases c with
  | name bytes => rfl
  | root | here | up => exact (Utf8.restore_eq_of_ascii (by decide +kernel)).symm

/-- A name is restored as a name, for what is not UTF-8 in it is no sign of a path. -/
theorem IsStep.restored {c : Component} (h : c.IsStep) : c.restored.IsStep := by
  cases c with
  | up => trivial
  | root | here => exact h.elim
  | name bytes =>
    obtain ⟨hslash, hgap, hup⟩ := h
    have hascii : ∀ sign : List UInt8, (∀ byte ∈ sign, byte < 0x80) → Utf8.restore bytes = sign →
        bytes = sign := by
      rintro sign hsign rfl
      exact (Utf8.restore_eq_of_ascii hsign).symm
    refine ⟨fun hmem => ?_, ?_, fun hrestored => hup (hascii _ (by decide +kernel) hrestored)⟩
    · exact (Utf8.mem_restore hmem).elim hslash (by decide)
    · rw [isGap, Bool.or_eq_false_iff, decide_eq_false_iff_not, decide_eq_false_iff_not] at hgap ⊢
      exact ⟨fun hrestored => hgap.1 (hascii _ (by decide +kernel) hrestored),
        fun hrestored => hgap.2 (hascii _ (by decide +kernel) hrestored)⟩

end Component

theorem isStep_restored {cs : List Component} (h : ∀ c ∈ cs, c.IsStep) :
    ∀ c ∈ cs.map Component.restored, c.IsStep :=
  List.forall_mem_map.mpr fun c hc => (h c hc).restored

theorem ofComponents_root_inj {cs cs' : List Component} (h : ∀ c ∈ cs, c.IsStep)
    (h' : ∀ c ∈ cs', c.IsStep) :
    ofComponents (.root :: cs) = ofComponents (.root :: cs') ↔ cs = cs' := by
  refine ⟨fun hpath => ?_, congrArg fun cs => ofComponents (.root :: cs)⟩
  have hcomponents := congrArg components hpath
  rw [components_ofComponents_root h, components_ofComponents_root h'] at hcomponents
  exact (List.cons.inj hcomponents).2

theorem ofComponents_inj {cs cs' : List Component} (h : ∀ c ∈ cs, c.IsStep)
    (h' : ∀ c ∈ cs', c.IsStep) : ofComponents cs = ofComponents cs' ↔ cs = cs' := by
  refine ⟨fun hpath => ?_, congrArg ofComponents⟩
  rw [← components_ofComponents h, hpath, components_ofComponents h']

/-- The bytes of steps are restored step by step. -/
theorem restore_ofComponents {cs : List Component} (h : ∀ c ∈ cs, c.IsStep) :
    Utf8.restore (ofComponents cs).bytes = (ofComponents (cs.map Component.restored)).bytes := by
  rw [bytes_ofComponents h, bytes_ofComponents (isStep_restored h), slash, Utf8.restore_intercalate,
    List.map_map, List.map_map]
  exact congrArg _ (List.map_congr_left fun c _ => c.bytes_restored.symm)

/-- The address of a path that is put together from steps tells these steps. -/
theorem ofString_toUrl {cs : List Component} (h : ∀ c ∈ cs, c.IsStep) :
    ofString (toUrl (ofComponents cs)) = ofComponents (cs.map Component.restored) := by
  have htext : toUrl (ofComponents cs) = Utf8.lossy (ofComponents cs).bytes := by
    rw [toUrl, components_ofComponents h, bytes_ofComponents h, slash, Utf8.lossy_intercalate,
      List.map_map]
    rfl
  rw [htext]
  exact congrArg Path.mk (restore_ofComponents h)

/-- Steps are told as they are if they are UTF-8. -/
theorem isSome_text?_ofComponents {cs : List Component} (h : ∀ c ∈ cs, c.IsStep) :
    (ofComponents cs).text?.isSome ↔ cs.map Component.restored = cs := by
  rw [text?, ← Utf8.restore_eq_self, restore_ofComponents h, ← ofComponents_inj (isStep_restored h) h]
  exact ⟨congrArg Path.mk, congrArg Path.bytes⟩

/-- The components that are left by a walk stay when they are folded, from any of them on, also as an
address tells them. -/
theorem foldl_fold_restored (walk : Walk) (n : Nat) :
    ((walk.components.drop (n + 1)).map Component.restored).foldl fold
        (walk.components.take (n + 1)).reverse =
      (walk.components.take (n + 1) ++
        (walk.components.drop (n + 1)).map Component.restored).reverse := by
  have hnames : ∀ (names : Way) (n : Nat) (above : List Component),
      (((names.map Component.name).drop n).map Component.restored).foldl fold above =
        (((names.map Component.name).drop n).map Component.restored).reverse ++ above := by
    intro names n above
    have hrestored : ((names.map Component.name).drop n).map Component.restored =
        ((names.drop n).map Utf8.restore).map .name := by
      rw [← List.map_drop, List.map_map, List.map_map]
      rfl
    rw [hrestored, foldl_fold_names]
  unfold Walk.components
  generalize walk.place.reverse = names
  rw [List.drop_succ_cons, List.take_succ_cons, List.reverse_append]
  split
  · cases n with
    | zero =>
      -- The step up is left above the root.
      have hback := hnames names 0 [.up, .root]
      rw [List.drop_zero] at hback
      exact hback.trans (by simp [Component.restored])
    | succ n => exact hnames names n _
  · exact hnames names n _

/-! ### Ways from directories -/

theorem sharedLength_le (as bs : List Component) :
    sharedLength as bs ≤ as.length ∧ sharedLength as bs ≤ bs.length := by
  fun_induction sharedLength as bs with
  | case1 a as bs ih => simpa using ih
  | case2 => simp
  | case3 => simp

theorem take_sharedLength (as bs : List Component) :
    as.take (sharedLength as bs) = bs.take (sharedLength as bs) := by
  fun_induction sharedLength as bs with
  | case1 a as bs ih => rw [List.take_succ_cons, List.take_succ_cons, ih]
  | case2 => rfl
  | case3 => rfl

theorem isAbsolute_ofComponents {cs : List Component} (h : ∀ c ∈ cs, c.IsStep) :
    isAbsolute (ofComponents cs) = false := by
  rw [Bool.eq_false_iff]
  intro habsolute
  have hcomponents := components_of_isAbsolute habsolute
  rw [components_ofComponents h] at hcomponents
  exact h .root (hcomponents ▸ List.mem_cons_self)

/-- Steps from a directory lead where they lead behind its components. -/
theorem absolutize_ofComponents {directory : Path} (hdirectory : directory.isAbsolute = true)
    {cs : List Component} (h : ∀ c ∈ cs, c.IsStep) : directory.absolutize (ofComponents cs) =
      ofComponents ((directory.components ++ cs).foldl fold []).reverse := by
  rw [absolutize, components_join hdirectory (isAbsolute_ofComponents h), bytes_ofComponents h,
    steps_intercalate h]

variable {directory : Path} {walk file : Walk}

/-- The address of the way from a directory to a file leads to the file just if the way is UTF-8. -/
theorem absolutize_relative (hdirectory : directory.components = walk.components)
    (hfile : file.IsNamed) :
    directory.absolutize (directory.relative file.path).toUrl = file.path ↔
      (directory.relative file.path).text?.isSome := by
  -- Both begin at the root, so they part behind it.
  obtain ⟨n, hn⟩ : ∃ n, sharedLength walk.components file.components = n + 1 := ⟨_, rfl⟩
  have hlt : n + 1 ≤ walk.components.length := hn ▸ (sharedLength_le _ file.components).1
  have htake := hn ▸ take_sharedLength walk.components file.components
  obtain ⟨cs, hcs, hnamed⟩ : ∃ cs, file.components = .root :: cs ∧ ∀ c ∈ cs, c.IsStep :=
    ⟨_, rfl, hfile.isStep⟩
  have hfront : ∀ c ∈ cs.take n, c.IsStep := fun c hc => hnamed c (List.mem_of_mem_take hc)
  have hback : ∀ c ∈ cs.drop n, c.IsStep := fun c hc => hnamed c (List.mem_of_mem_drop hc)
  have hups : ∀ c ∈ List.replicate (walk.components.length - (n + 1)) Component.up, c.IsStep := by
    intro c hc
    rw [List.eq_of_mem_replicate hc]
    trivial
  have hsteps := List.forall_mem_append.mpr ⟨hups, hback⟩
  have hrelative : directory.relative file.path = ofComponents
      (List.replicate (walk.components.length - (n + 1)) .up ++ cs.drop n) := by
    rw [relative, hdirectory, hfile.components_path, hn, hcs, List.drop_succ_cons]
  have hrestored := foldl_fold_restored file n
  rw [hcs, List.drop_succ_cons, List.take_succ_cons, List.cons_append] at hrestored
  have hleads : directory.absolutize (directory.relative file.path).toUrl =
      ofComponents (.root :: (cs.take n ++ (cs.drop n).map Component.restored)) := by
    rw [hrelative, ofString_toUrl hsteps,
      absolutize_ofComponents (isAbsolute_of_components hdirectory) (isStep_restored hsteps),
      List.map_append, List.map_replicate, Component.restored, hdirectory, List.foldl_append,
      List.foldl_append, foldl_fold_walk, foldl_fold_climb walk hlt, htake, hcs, List.take_succ_cons,
      hrestored, List.reverse_reverse]
  have htold : (directory.relative file.path).text?.isSome ↔
      (cs.drop n).map Component.restored = cs.drop n := by
    rw [hrelative, isSome_text?_ofComponents hsteps, List.map_append, List.map_replicate,
      Component.restored, List.append_cancel_left_eq]
  rw [hleads, htold, Walk.path, hcs,
    ofComponents_root_inj (List.forall_mem_append.mpr ⟨hfront, isStep_restored hback⟩) hnamed]
  exact ⟨fun h => List.append_cancel_left (h.trans (List.take_append_drop n cs).symm),
    fun h => by rw [h, List.take_append_drop]⟩

/-! ### Texts of steps -/

theorem dropWhile_isGap {body : List (List UInt8)} (h : ∀ stretch ∈ body, isGap stretch = false) :
    body.dropWhile isGap = body := by
  cases body with
  | nil => rfl
  | cons stretch body => exact List.dropWhile_cons_of_neg (by simp [h stretch List.mem_cons_self])

theorem trimEnd_eq {head : Option Component} {body : List (List UInt8)}
    (h : ∀ stretch ∈ body, isGap stretch = false) : Parts.trimEnd ⟨head, body⟩ = ⟨head, body⟩ := by
  rw [Parts.trimEnd, dropWhile_isGap fun stretch hstretch => h stretch (List.mem_reverse.mp hstretch),
    List.reverse_reverse]

theorem behind_eq_drop {body : List (List UInt8)} (h : ∀ stretch ∈ body, isGap stretch = false)
    (n : Nat) : behind n body = body.drop n := by
  induction body generalizing n with
  | nil => cases n <;> rfl
  | cons stretch body ih =>
    obtain ⟨hstretch, hbody⟩ := List.forall_mem_cons.mp h
    cases n with
    | zero => rfl
    | succ n => rw [behind, hstretch, if_neg Bool.false_ne_true, ih hbody, List.drop_succ_cons]

theorem isGap_texts {cs : List Component} (h : ∀ c ∈ cs, c.IsStep) :
    ∀ stretch ∈ cs.map Component.bytes, isGap stretch = false := by
  intro stretch hstretch
  obtain ⟨c, hc, rfl⟩ := List.mem_map.mp hstretch
  exact (h c hc).not_isGap

/-- The parts of a path are the texts of its steps from the root. Behind a bare root is nothing. -/
theorem parts_ofComponents_root {cs : List Component} (h : ∀ c ∈ cs, c.IsStep) :
    (ofComponents (.root :: cs)).parts =
      ⟨some .root, if cs = [] then [[]] else cs.map Component.bytes⟩ := by
  rw [parts, bytes_ofComponents_root h, Parts.ofBytes]
  by_cases hcs : cs = []
  · subst hcs
    rfl
  · have hslash : ∀ part ∈ cs.map Component.bytes, slash ∉ part := by
      intro part hpart
      obtain ⟨c, hc, rfl⟩ := List.mem_map.mp hpart
      exact (h c hc).slash_notMem
    rw [if_pos (List.head?_cons ..), if_neg hcs, List.tail_cons,
      stretches_intercalate (by simpa using hcs) hslash]

/-- The directory of a path lacks its last step. -/
theorem directory_ofComponents_root {cs : List Component} (h : ∀ c ∈ cs, c.IsStep) :
    (ofComponents (.root :: cs)).directory = ofComponents (.root :: cs.dropLast) := by
  unfold directory parent?
  rw [parts_ofComponents_root h]
  rcases List.eq_nil_or_concat cs with rfl | ⟨front, last, rfl⟩
  · rfl
  · rw [List.concat_eq_append] at *
    have hfront : ∀ c ∈ front, c.IsStep := fun c hc => h c (List.mem_append_left _ hc)
    have hlast : isGap last.bytes = false := (h last (by simp)).not_isGap
    have hne : front ++ [last] ≠ [] := by simp
    rw [if_neg hne, List.map_append, List.map_singleton, List.reverse_concat,
      List.dropWhile_cons_of_neg (by simp [hlast])]
    dsimp only
    rw [List.reverse_reverse, trimEnd_eq (isGap_texts hfront), List.dropLast_concat, Option.getD_some,
      Parts.toPath, mk.injEq, bytes_ofComponents_root hfront]
    rfl

/-- The rest of a path below a base that it begins with. -/
theorem below?_ofComponents_root {base : Path} {front back : List Component}
    (hbase : base.parts = ⟨some .root, base.parts.body⟩) (hfront : base.parts.names = front)
    (h : ∀ c ∈ front ++ back, c.IsStep) :
    below? base (ofComponents (.root :: (front ++ back))) = some (ofComponents back) := by
  have hback : ∀ c ∈ back, c.IsStep := fun c hc => h c (List.mem_append_right _ hc)
  have hcomponents : base.components = .root :: front := by
    rw [components, hbase, ← hfront]
    rfl
  have hprefix : base.components.isPrefixOf (ofComponents (.root :: (front ++ back))).components := by
    rw [components_ofComponents_root h, hcomponents]
    simp
  have hsome : base.components.isEmpty = false := by rw [hcomponents]; rfl
  have hbody : (behind front.length (ofComponents (.root :: (front ++ back))).parts.body).dropWhile
      isGap = back.map Component.bytes := by
    rw [parts_ofComponents_root h]
    by_cases hnil : front ++ back = []
    · obtain ⟨rfl, rfl⟩ := List.append_eq_nil_iff.mp hnil
      rfl
    · dsimp only
      rw [if_neg hnil, behind_eq_drop (isGap_texts h), List.map_append, List.drop_left',
        dropWhile_isGap (isGap_texts hback)]
      exact List.length_map ..
  rw [below?, if_pos hprefix, hsome, if_neg Bool.false_ne_true, hfront]
  dsimp only
  rw [hbody, trimEnd_eq (isGap_texts hback), Parts.toPath, Option.some.injEq]
  refine (congrArg Path.mk ?_ : _ = Path.mk (ofComponents back).bytes)
  rw [bytes_ofComponents hback]
  rfl

/-- A path of a walk is folded already. -/
theorem absolutize_path (directory : Path) (hfile : file.IsNamed) :
    directory.absolutize file.path = file.path := by
  have habsolute := isAbsolute_of_components hfile.components_path
  rw [absolutize, join, if_pos habsolute, hfile.components_path, foldl_fold_walk, List.reverse_reverse]
  rfl

/-- What is shown of a path of a walk leads back to it. -/
theorem absolutize_shown (hdirectory : directory.isAbsolute = true) (hfile : file.IsNamed) :
    directory.absolutize (directory.shown file.path) = file.path := by
  obtain ⟨cs, hcs, hsteps⟩ : ∃ cs, file.components = .root :: cs ∧ ∀ c ∈ cs, c.IsStep :=
    ⟨_, rfl, hfile.isStep⟩
  have hparts : directory.parts = ⟨some .root, directory.parts.body⟩ := by
    rw [← of_decide_eq_true hdirectory]
  have hcomponents : directory.components = .root :: directory.parts.names := by
    rw [components, of_decide_eq_true hdirectory]
    rfl
  unfold shown
  by_cases hprefix : directory.parts.names <+: cs
  · obtain ⟨back, rfl⟩ := hprefix
    have hbelow := below?_ofComponents_root hparts rfl hsteps
    rw [← hcs] at hbelow
    rw [Walk.path, hbelow]
    dsimp only
    split
    · exact absolutize_path directory hfile
    · rw [absolutize_ofComponents hdirectory fun c hc => hsteps c (List.mem_append_right _ hc),
        hcomponents, List.cons_append, ← hcs, foldl_fold_walk, List.reverse_reverse]
  · have hbelow : below? directory file.path = none := by
      rw [below?, if_neg]
      rw [hfile.components_path, hcs, hcomponents]
      simpa using hprefix
    rw [hbelow]
    exact absolutize_path directory hfile

end Path

namespace Plan

variable {directory : Path}

/-! ### Directories of plans -/

/-- Whether a directory is at the end of a walk. -/
def Reached (directory : Path) : Prop :=
  ∃ walk : Walk, directory.components = walk.components

theorem reached_directory {walk : Walk} (h : walk.IsNamed) : Reached walk.path.directory := by
  obtain ⟨place, vain⟩ := walk
  cases place with
  | nil =>
    refine ⟨.start, ?_⟩
    rw [Walk.path, Walk.components, Path.directory_ofComponents_root h.isStep]
    split <;> exact Path.components_ofComponents_root (List.forall_mem_nil _)
  | cons name place =>
    have hplace : Walk.IsNamed ⟨place, vain⟩ := (List.forall_mem_cons.mp h).2
    refine ⟨⟨place, vain⟩, ?_⟩
    rw [Walk.path, Walk.components, Path.directory_ofComponents_root h.isStep, List.reverse_cons,
      List.map_append, ← List.append_assoc, List.map_singleton, List.dropLast_concat]
    exact hplace.components_path

/-- The working directory is at the end of a walk if it is told without steps up. -/
theorem reached_of_up_notMem (hdirectory : directory.isAbsolute = true)
    (hup : .up ∉ directory.components) : Reached directory := by
  have hcomponents := Path.components_of_isAbsolute hdirectory
  have hnames : ∀ c ∈ Path.steps directory.bytes, Path.Component.name c.bytes = c := by
    intro c hc
    have hstep := Path.isStep_of_mem_steps hc
    cases c with
    | name text => rfl
    | up => exact absurd (hcomponents ▸ List.mem_cons_of_mem _ hc) hup
    | root | here => exact hstep.elim
  refine ⟨⟨((Path.steps directory.bytes).map Path.Component.bytes).reverse, 0⟩, ?_⟩
  rw [hcomponents, Walk.components, List.reverse_reverse, List.map_map]
  exact congrArg (List.cons .root) ((List.map_congr_left hnames).trans (List.map_id _)).symm

theorem reached_outputDirectory (options : Options) (hdirectory : directory.isAbsolute = true)
    (hup : .up ∉ directory.components) : Reached (ofOptions options directory).outputDirectory := by
  unfold outputDirectory
  split
  · exact reached_of_up_notMem hdirectory hup
  · next path houtput =>
    obtain ⟨walk, hnamed, rfl⟩ := HasFile.exists_walk hdirectory (.inr (.inl houtput))
    exact reached_directory hnamed

theorem reached_mapDirectory (options : Options) (hdirectory : directory.isAbsolute = true)
    (hup : .up ∉ directory.components) : Reached (ofOptions options directory).mapDirectory := by
  unfold mapDirectory
  split
  · next path hmap =>
    obtain ⟨walk, hnamed, rfl⟩ := HasFile.exists_walk hdirectory (.inr (.inr hmap))
    exact reached_directory hnamed
  · exact reached_outputDirectory options hdirectory hup

/-! ### Names that lead back -/

/-- How the files of a plan are found by the names that the source map and the user see of them. -/
structure Traceable (plan : Plan) : Prop where
  /-- The name of a source leads to its file from the directory of the map, just if the way there is
  UTF-8. -/
  source : ∀ path, .file path ∈ plan.inputs →
    (plan.mapDirectory.absolutize (plan.sourceName (.file path)) = path ↔
      (plan.mapDirectory.relative path).text?.isSome)
  /-- So no two files have one name if the ways to them are UTF-8. -/
  distinct : ∀ path path', .file path ∈ plan.inputs → .file path' ∈ plan.inputs →
    (plan.mapDirectory.relative path).text?.isSome → (plan.mapDirectory.relative path').text?.isSome →
    plan.sourceName (.file path) = plan.sourceName (.file path') → path = path'
  /-- The address of a map leads to its file from the directory of the output, just if the way there is
  UTF-8. -/
  address : ∀ path, plan.sourceMap = some (.file path) → ∃ url, plan.mapUrl? = some url ∧
    (plan.outputDirectory.absolutize url = path ↔ (plan.outputDirectory.relative path).text?.isSome)
  /-- What is shown of a path leads to the file from the working directory. -/
  shown : ∀ path, plan.HasFile path →
    plan.directory.absolutize (plan.directory.shown path) = path

/-- What a plan hands on leads back to its files, if it is made in an absolute directory without steps
up. The names of sources and the address of a map are texts, and lead back just if the ways that they
tell are UTF-8. -/
theorem traceable (options : Options) (hdirectory : directory.isAbsolute = true)
    (hup : .up ∉ directory.components) : (ofOptions options directory).Traceable := by
  have hsource : ∀ path, .file path ∈ (ofOptions options directory).inputs →
      ((ofOptions options directory).mapDirectory.absolutize
        ((ofOptions options directory).sourceName (.file path)) = path ↔
        ((ofOptions options directory).mapDirectory.relative path).text?.isSome) := by
    intro path hpath
    obtain ⟨walk, hnamed, rfl⟩ := HasFile.exists_walk hdirectory (.inl hpath)
    obtain ⟨walk', hmap⟩ := reached_mapDirectory options hdirectory hup
    exact Path.absolutize_relative hmap hnamed
  constructor
  case source => exact hsource
  case distinct =>
    intro path path' hpath hpath' htext htext' hname
    rw [← (hsource path hpath).mpr htext, hname, (hsource path' hpath').mpr htext']
  case address =>
    intro path hpath
    refine ⟨_, by rw [mapUrl?, hpath], ?_⟩
    obtain ⟨walk, hnamed, rfl⟩ := HasFile.exists_walk hdirectory (.inr (.inr hpath))
    obtain ⟨walk', houtput⟩ := reached_outputDirectory options hdirectory hup
    exact Path.absolutize_relative houtput hnamed
  case shown =>
    intro path hpath
    obtain ⟨walk, hnamed, rfl⟩ := HasFile.exists_walk hdirectory hpath
    exact Path.absolutize_shown hdirectory hnamed

theorem traceable_climbing :
    let options : Options := {
      inputs := ["src/a.js", "../../c.js"]
      output := some "build/o.js"
      sourceMap := .file "maps/o.map" }
    let plan := ofOptions options "/work"
    Path.isAbsolute "/work" = true ∧ .up ∉ Path.components "/work" ∧ plan.Traceable ∧
    plan.mapDirectory = "/work/maps" ∧
    plan.sourceName (.file "/work/src/a.js") = "../src/a.js" ∧
    Path.absolutize "/work/maps" "../src/a.js" = "/work/src/a.js" ∧
    plan.sourceName (.file "/../c.js") = "../../../c.js" ∧
    Path.absolutize "/work/maps" "../../../c.js" = "/../c.js" := by
  intro options plan
  have hwork : Path.isAbsolute "/work" = true := by decide +kernel
  have hup : .up ∉ Path.components "/work" := by decide +kernel
  have hplan : plan.Traceable := traceable options hwork hup
  have hdirectory : plan.mapDirectory = "/work/maps" := by decide +kernel
  have ha : plan.sourceName (.file "/work/src/a.js") = "../src/a.js" := by decide +kernel
  have hc : plan.sourceName (.file "/../c.js") = "../../../c.js" := by decide +kernel
  have hleada := hplan.source "/work/src/a.js" (by decide +kernel)
  have hleadc := hplan.source "/../c.js" (by decide +kernel)
  rw [hdirectory, ha] at hleada
  rw [hdirectory, hc] at hleadc
  exact ⟨hwork, hup, hplan, hdirectory, ha, hleada.mpr (by decide +kernel), hc,
    hleadc.mpr (by decide +kernel)⟩

/-- Two files that differ in bytes which are not UTF-8 have one name in a source map, and it leads to
neither of them. The address of a map beside such an output leads past it as well. -/
theorem sources_confused :
    let first : Path := ⟨0xFF :: Utf8.ofString ".js"⟩
    let second : Path := ⟨0xFE :: Utf8.ofString ".js"⟩
    let plan := ofOptions { inputs := [first, second], output := some first, sourceMap := .auto } "/"
    Path.isAbsolute "/" = true ∧ (∀ c ∈ Path.components "/", c ≠ .here ∧ c ≠ .up) ∧
    ∃ path path', plan.inputs = [.file path, .file path'] ∧ path ≠ path' ∧
      plan.sourceName (.file path) = plan.sourceName (.file path') ∧
      plan.mapDirectory.absolutize (plan.sourceName (.file path)) ≠ path ∧
      plan.mapDirectory.absolutize (plan.sourceName (.file path')) ≠ path' ∧
      ∃ map url, plan.sourceMap = some (.file map) ∧ plan.mapUrl? = some url ∧
        plan.outputDirectory.absolutize url ≠ map := by
  refine ⟨by decide +kernel, by decide +kernel, ⟨Utf8.ofString "/" ++ 0xFF :: Utf8.ofString ".js"⟩,
    ⟨Utf8.ofString "/" ++ 0xFE :: Utf8.ofString ".js"⟩, ?_, ?_, ?_, ?_, ?_,
    ⟨Utf8.ofString "/" ++ 0xFF :: Utf8.ofString ".js.map"⟩, "\uFFFD.js.map", ?_, ?_, ?_⟩ <;>
  decide +kernel

end Plan
end EcmaPress

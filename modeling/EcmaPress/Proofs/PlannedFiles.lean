import EcmaPress.Proofs.Walks
import EcmaPress.Run.Press

/-!
# The files of a plan

Every file of a plan has a path whose dots have been folded away, and the map beside an output has
one as well. A plan tells by their paths whether the map has a file of its own. It is right about
that unless one of the two paths strays, that is, takes an odd number of steps up from the root:
then the map is written over the output that it belongs to.
-/

namespace EcmaPress

namespace Walk

variable {walk : Walk}

/-- A name with the ending of a source map is one. -/
theorem isName_mapped {name : List UInt8} (h : Path.slash ∉ name) :
    Path.IsName (name ++ Utf8.ofString ".map") := by
  have hmap : Utf8.ofString ".map" = [0x2E, 0x6D, 0x61, 0x70] := by decide
  have hlength : 4 ≤ (name ++ Utf8.ofString ".map").length := by simp [hmap]
  refine ⟨fun hslash => ?_, ?_, fun hup => ?_⟩
  · exact (List.mem_append.mp hslash).elim h (by decide)
  · rw [Bool.eq_false_iff]
    intro hgap
    have hcases : name ++ Utf8.ofString ".map" = [] ∨ name ++ Utf8.ofString ".map" = [Path.dot] := by
      simpa [Path.isGap] using hgap
    rcases hcases with hcase | hcase <;> rw [hcase] at hlength <;> exact absurd hlength (by decide)
  · rw [hup] at hlength
    exact absurd hlength (by decide)

/-- The walk to the file beside the one that a walk leads to. A step up from the root that is left
becomes a part of the name. -/
def beside (walk : Walk) : Walk :=
  match walk.place with
  | [] => ⟨[(if walk.Strays then [Path.dot, Path.dot] else []) ++ Utf8.ofString ".map"], 0⟩
  | name :: place => { walk with place := (name ++ Utf8.ofString ".map") :: place }

theorem IsNamed.beside (h : walk.IsNamed) : walk.beside.IsNamed := by
  obtain ⟨place, vain⟩ := walk
  cases place with
  | nil =>
    refine List.forall_mem_singleton.mpr (isName_mapped ?_)
    split <;> decide
  | cons name place =>
    obtain ⟨hname, hplace⟩ := List.forall_mem_cons.mp h
    exact List.forall_mem_cons.mpr ⟨isName_mapped hname.1, hplace⟩

theorem beside_place_ne (walk : Walk) : walk.beside.place ≠ walk.place := by
  obtain ⟨place, vain⟩ := walk
  cases place with
  | nil => exact List.cons_ne_nil _ _
  | cons name place =>
    intro h
    have hname := (List.cons.inj h).1
    exact absurd (List.append_right_eq_self.mp hname) (by decide)

end Walk

theorem intercalate_concat_append {α : Type} (separator last suffix : List α) (parts : List (List α)) :
    separator.intercalate (parts ++ [last]) ++ suffix =
      separator.intercalate (parts ++ [last ++ suffix]) := by
  induction parts with
  | nil => simp
  | cons part parts ih =>
    have hne : ∀ part : List α, parts ++ [part] ≠ [] := by simp
    rw [List.cons_append, List.cons_append, List.intercalate_cons_of_ne_nil (hne _),
      List.intercalate_cons_of_ne_nil (hne _), List.append_assoc, ih]

/-- The map beside a folded path has a folded path. -/
theorem Plan.beside_path {walk : Walk} (h : walk.IsNamed) : beside walk.path = walk.beside.path := by
  rw [beside, h.beside.path_eq, h.path_eq, Path.ofWay, Path.ofWay, Path.mk.injEq, List.cons_append]
  obtain ⟨place, vain⟩ := walk
  refine congrArg (Path.slash :: ·) ?_
  cases place with
  | nil =>
    have hstart : ∀ place, ¬ Walk.Strays ⟨place, 0⟩ := fun _ => Nat.zero_ne_one
    simp only [Walk.beside, hstart, if_false]
    split <;> simp
  | cons name place =>
    rw [List.reverse_cons, ← List.append_assoc, intercalate_concat_append, List.append_assoc,
      ← List.reverse_cons]
    rfl

namespace Plan

variable {directory : Path} {options : Options}

/-- Whether a plan reads or writes the file with some path. -/
def HasFile (plan : Plan) (path : Path) : Prop :=
  .file path ∈ plan.inputs ∨ plan.output = .file path ∨ plan.sourceMap = some (.file path)

theorem output_eq_file {path : Path} (h : (ofOptions options directory).output = .file path) :
    ∃ request, options.output = some request ∧ path = directory.absolutize request := by
  cases houtput : options.output with
  | none => simp [ofOptions, houtput] at h
  | some request =>
    simp only [ofOptions, houtput, OutputStream.file.injEq] at h
    exact ⟨request, rfl, h.symm⟩

/-- A map that has a file of its own stands beside the output or has been asked for. -/
theorem sourceMap_eq_file {path : Path}
    (h : (ofOptions options directory).sourceMap = some (.file path)) :
    (∃ output, (ofOptions options directory).output = .file output ∧ options.sourceMap = .auto ∧
      path = beside output) ∨
    ∃ request, options.sourceMap = .file request ∧ path = directory.absolutize request := by
  have hplace : placeMap directory (ofOptions options directory).output options.sourceMap =
      some (.file path) := h
  unfold placeMap at hplace
  cases hrequest : options.sourceMap with
  | absent => simp [hrequest] at hplace
  | auto =>
    cases houtput : (ofOptions options directory).output with
    | standard => simp [hrequest, houtput] at hplace
    | file output =>
      simp only [hrequest, houtput, Option.some.injEq, MapStream.file.injEq] at hplace
      exact .inl ⟨output, rfl, rfl, hplace.symm⟩
  | file request =>
    refine .inr ⟨request, rfl, ?_⟩
    cases houtput : (ofOptions options directory).output with
    | standard =>
      simp only [hrequest, houtput, Option.some.injEq, MapStream.file.injEq] at hplace
      exact hplace.symm
    | file output =>
      simp only [hrequest, houtput] at hplace
      split at hplace
      · cases hplace
      · exact (MapStream.file.inj (Option.some.inj hplace)).symm

/-- The dots of all paths of a plan have been folded away. -/
theorem HasFile.exists_walk (hdirectory : directory.isAbsolute = true) {path : Path}
    (h : (ofOptions options directory).HasFile path) :
    ∃ walk : Walk, walk.IsNamed ∧ path = walk.path := by
  have hfolded : ∀ request, ∃ walk : Walk, walk.IsNamed ∧ directory.absolutize request = walk.path :=
    fun request => ⟨_, Path.isNamed_walk hdirectory request, Path.absolutize_eq hdirectory request⟩
  rcases h with hinput | houtput | hmap
  · unfold ofOptions at hinput
    dsimp only at hinput
    split at hinput
    · simp at hinput
    · obtain ⟨request, -, hrequest⟩ := List.mem_map.mp hinput
      obtain rfl := InputStream.file.inj hrequest
      exact hfolded request
  · obtain ⟨request, -, rfl⟩ := output_eq_file houtput
    exact hfolded request
  · rcases sourceMap_eq_file hmap with ⟨output, houtput, -, rfl⟩ | ⟨request, -, rfl⟩
    · obtain ⟨request, -, rfl⟩ := output_eq_file houtput
      have hnamed := Path.isNamed_walk hdirectory request
      exact ⟨_, hnamed.beside, by rw [Path.absolutize_eq hdirectory, beside_path hnamed]⟩
    · exact hfolded request

/-- A map that is asked for at some path belongs to the output if the paths are folded to one. -/
theorem sourceMap_eq_inline (hdirectory : directory.isAbsolute = true) {output map : Path}
    (houtput : options.output = some output) (hmap : options.sourceMap = .file map) :
    (ofOptions options directory).sourceMap = some .inline ↔
      directory.place output = directory.place map ∧
        ((directory.walk output).Strays ↔ (directory.walk map).Strays) := by
  have hsame := (Path.isNamed_walk hdirectory output).same_path (Path.isNamed_walk hdirectory map)
  rw [← Path.absolutize_eq hdirectory, ← Path.absolutize_eq hdirectory,
    Path.absolutize_inj hdirectory] at hsame
  rw [← hsame]
  simp only [ofOptions, houtput, hmap, placeMap]
  split <;> simp [*]

/-- A map beside its output does not go to the output. -/
theorem way_beside_ne (hdirectory : directory.isAbsolute = true) (output : Path) :
    Files.way (directory.absolutize output) ≠ Files.way (beside (directory.absolutize output)) := by
  have hnamed := Path.isNamed_walk hdirectory output
  rw [Path.absolutize_eq hdirectory, beside_path hnamed, hnamed.way_path, hnamed.beside.way_path]
  exact fun h => Walk.beside_place_ne _ (List.reverse_injective h).symm

/-- What plans tell about the paths that they are given, seen from a directory. -/
structure Discerns (directory : Path) : Prop where
  /-- The dots of a path are folded away just if it does not stray. -/
  folds : ∀ path, directory.absolutize path = .ofWay (directory.place path) ↔
    ¬ (directory.walk path).Strays
  /-- Paths that lead to one place compare equal just if both or neither of them stray. -/
  equates : ∀ path path', directory.absolutize path = directory.absolutize path' ↔
    directory.place path = directory.place path' ∧
      ((directory.walk path).Strays ↔ (directory.walk path').Strays)
  /-- So it is with a map that is asked for at the place of the output. -/
  inlines : ∀ (options : Options) (output map : Path), options.output = some output →
    options.sourceMap = .file map →
    ((ofOptions options directory).sourceMap = some .inline ↔
      directory.place output = directory.place map ∧
        ((directory.walk output).Strays ↔ (directory.walk map).Strays))
  /-- A map with a file of its own does not go to that of the output, if neither or both stray. -/
  parts : ∀ options : Options,
    (∀ output map, options.output = some output → options.sourceMap = .file map →
      ((directory.walk output).Strays ↔ (directory.walk map).Strays)) →
    ∀ output map, (ofOptions options directory).output = .file output →
      (ofOptions options directory).sourceMap = some (.file map) → Files.way output ≠ Files.way map

theorem discerns (hdirectory : directory.isAbsolute = true) : Discerns directory where
  folds path := by
    have hnamed := Path.isNamed_walk hdirectory path
    have hnamed' : Walk.IsNamed ⟨(directory.walk path).place, 0⟩ := hnamed
    have hway : Path.ofWay (directory.place path) = Walk.path ⟨(directory.walk path).place, 0⟩ :=
      hnamed'.path_eq.symm
    rw [hway, Path.absolutize_eq hdirectory, hnamed.path_inj hnamed', Walk.components_inj]
    simp [Walk.Strays]
  equates path path' := Path.absolutize_inj hdirectory
  inlines options output map := sourceMap_eq_inline hdirectory
  parts options hstrays output map houtput hmap := by
    obtain ⟨request, hrequest, rfl⟩ := output_eq_file houtput
    rcases sourceMap_eq_file hmap with ⟨output, houtput', -, rfl⟩ | ⟨request', hrequest', rfl⟩
    · obtain rfl := OutputStream.file.inj (houtput.symm.trans houtput')
      exact way_beside_ne hdirectory request
    · intro hways
      rw [Path.way_absolutize hdirectory, Path.way_absolutize hdirectory] at hways
      have hinline := (sourceMap_eq_inline hdirectory hrequest hrequest').mpr
        ⟨hways, hstrays _ _ hrequest hrequest'⟩
      rw [hinline] at hmap
      cases hmap

theorem discerns_work :
    Path.isAbsolute "/work" = true ∧ Discerns "/work" ∧
    Path.absolutize "/work" "./sub/../../b//./c.js" =
      Path.ofWay [Utf8.ofString "b", Utf8.ofString "c.js"] ∧
    (ofOptions { output := some "dest.js", sourceMap := .file "sub/.././dest.js" }
      "/work").sourceMap = some .inline := by
  have hwork : Path.isAbsolute "/work" = true := by decide +kernel
  refine ⟨hwork, discerns hwork, ?_, ?_⟩
  · exact ((discerns hwork).folds _).mpr (by decide +kernel)
  · exact ((discerns hwork).inlines _ _ _ rfl rfl).mpr (by decide +kernel)

open scoped LegacyCoding in
/-- A step up from the root is not folded away, but two of them are. So a map that is asked for at the
place of the output is written over it. -/
theorem output_overwritten :
    Path.place "/" ".." = [] ∧ Path.absolutize "/" ".." = "/.." ∧
    Path.place "/" "../.." = [] ∧ Path.absolutize "/" "../.." = "/" ∧
    let options : Options := { output := some "/x.js", sourceMap := .file "/../x.js" }
    let run := World.play (press options "/" none).run { stdin := .ok "a".toUTF8.toList }
    Path.place "/" "/x.js" = Path.place "/" "/../x.js" ∧
    (ofOptions options "/").sourceMap = some (.file "/../x.js") ∧
    run.2.files = [([Utf8.ofString "x.js"], .file
      ("\x7b\"version\":3,\"file\":\"x.js\",\"sources\":[\"<stdin>\"],\"names\":[]," ++
        "\"mappings\":\"AAAA\"\x7d").toUTF8.toList)] := by
  refine ⟨?_, ?_, ?_, ?_, ?_, ?_, ?_⟩ <;> decide +kernel

end Plan
end EcmaPress

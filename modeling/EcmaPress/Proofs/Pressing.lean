import EcmaPress.Proofs.Courses
import EcmaPress.Proofs.Worlds

/-!
# What a run does to its world

A run that is played with a world takes one of its courses there. So one can tell which files it
may change and when, what is left behind when it fails, and what an interrupt stops.
-/

namespace EcmaPress

/-! ### Plans -/

/-- A source map in a file of its own does not go to the file of the output. -/
theorem Plan.output_ne_map {options : Options} {directory path : Path}
    (h : (ofOptions options directory).sourceMap = some (.file path)) :
    (ofOptions options directory).output ≠ .file path := by
  intro houtput
  have hmap : placeMap directory (ofOptions options directory).output options.sourceMap =
      some (.file path) := h
  rw [houtput] at hmap
  unfold placeMap at hmap
  cases hrequest : options.sourceMap with
  | absent => simp [hrequest] at hmap
  | auto =>
    simp only [hrequest, Option.some.injEq, MapStream.file.injEq] at hmap
    have hbytes : path.bytes ++ Utf8.ofString ".map" = path.bytes := congrArg Path.bytes hmap
    exact absurd (List.append_right_eq_self.mp hbytes) (by decide)
  | file request =>
    simp only [hrequest] at hmap
    split at hmap
    · cases hmap
    · next hsame =>
      simp only [Option.some.injEq, MapStream.file.injEq] at hmap
      rw [hmap] at hsame
      exact hsame (by simp [Path.same])

/-- Whether a call belongs to the write of an output. -/
def OutputStream.IsCall (output : OutputStream) (c : Call) : Prop :=
  ∃ bytes, c ∈ output.calls bytes

theorem OutputStream.IsCall.not_isRead {output : OutputStream} {c : Call} (h : output.IsCall c) :
    c.isRead = false := by
  obtain ⟨bytes, hc⟩ := h
  cases output with
  | standard =>
    rcases List.mem_cons.mp hc with rfl | hc
    · rfl
    · rw [List.mem_singleton.mp hc]
      rfl
  | file =>
    rw [List.mem_singleton.mp hc]
    rfl

theorem OutputStream.IsCall.eq_file {output : OutputStream} {path : Path} {bytes : List UInt8}
    (h : output.IsCall (.writeFile path bytes)) : output = .file path := by
  obtain ⟨bytes', hc⟩ := h
  cases output with
  | standard => simp [calls] at hc
  | file other => rw [(Call.writeFile.inj (List.mem_singleton.mp hc)).1]

namespace Setting

variable {setting : Setting} {interrupted : Bool} {turns : List Turn} {result : Except Failure Unit}

/-! ### Writes -/

/-- Where turns are split at a write, those in front that write nothing stand before it. -/
theorem split_behind {front rest before after : List Turn} {turn : Turn}
    (hfront : ∀ turn ∈ front, turn.call.isWrite = false)
    (hsplit : front ++ rest = before ++ turn :: after) (hwrite : turn.call.isWrite = true) :
    ∃ between, before = front ++ between ∧ rest = between ++ turn :: after := by
  rcases List.append_eq_append_iff.mp hsplit with h | ⟨more, rfl, hmore⟩
  · exact h
  · cases more with
    | nil => exact ⟨[], by simp, by simpa using hmore.symm⟩
    | cons first more =>
      obtain ⟨rfl, -⟩ := List.cons.inj hmore
      rw [hfront turn (List.mem_append_right _ (List.mem_cons_self ..))] at hwrite
      cases hwrite

/-- A map goes to a file of its own if the plan says so. -/
theorem separateMap?_eq_some {bundle : Bundle} {path : Path} {text : String} :
    setting.separateMap? bundle = some (path, text) ↔ setting.plan.sourceMap = some (.file path) ∧
      (bundle.sourceMap setting.plan.outputName).text = text := by
  unfold separateMap?
  split
  · next hplan => simp [hplan]
  · next hother =>
    constructor
    · exact nofun
    · exact fun h => absurd h.1 (hother path)

variable [LegacyCoding]

theorem Ending.rest {bundle : Bundle} {answer : Except StreamError Unit} {raised : Bool}
    (h : setting.Ending bundle answer raised turns result) : ∀ turn ∈ turns, ∃ path bytes,
      setting.plan.sourceMap = some (.file path) ∧ turn.call = .writeFile path bytes ∧
        answer = .ok () ∧ raised = false ∧ turns = [turn] := by
  cases h with
  | failed | complete | interrupted | unencodable => exact nofun
  | @mapped path text bytes hanswer hmap hraised =>
    intro turn hturn
    obtain rfl := List.mem_singleton.mp hturn
    exact ⟨path, bytes, (separateMap?_eq_some.mp hmap).1, rfl, hanswer, hraised, rfl⟩

/-- An interrupt during the write of the output stands before the write of the map. -/
theorem Ending.not_mapped {bundle : Bundle} {answer : Except StreamError Unit} {path : Path}
    (h : setting.Ending bundle answer true turns result) (hanswer : answer.isOk = true)
    (hmap : setting.plan.sourceMap = some (.file path)) :
    result = .error .interrupted ∧ turns = [] := by
  have hsome : setting.separateMap? bundle = some (path, _) := separateMap?_eq_some.mpr ⟨hmap, rfl⟩
  cases h with
  | failed hfailed => rw [hfailed] at hanswer; cases hanswer
  | complete _ hnone => rw [hsome] at hnone; cases hnone
  | unencodable _ _ hraised => cases hraised
  | mapped _ _ hraised => cases hraised
  | interrupted => exact ⟨rfl, rfl⟩

/-- A write of a run is that of the output, in front of which there are only reads and no interrupt,
or it is the last turn and that of the map, directly behind those of the output. -/
theorem Course.write (h : setting.Course interrupted turns result) {before after : List Turn}
    {turn : Turn} (hsplit : turns = before ++ turn :: after) (hwrite : turn.call.isWrite = true) :
    interrupted = false ∧ ∃ sources reads writes bundle bytes answer raised rest,
      setting.Gathers sources reads bundle ∧
      setting.outputCharset.encode (setting.output bundle) = .ok bytes ∧
      setting.plan.output.Writes bytes writes answer raised ∧
      setting.Ending bundle answer raised rest result ∧
      ((before = reads ∧ turn ∈ writes) ∨
        ∃ path mapBytes, setting.plan.sourceMap = some (.file path) ∧
          turn.call = .writeFile path mapBytes ∧ answer = .ok () ∧ raised = false ∧
          before = reads ++ writes ∧ after = []) := by
  cases h with
  | unwritten hreads =>
    have hread := hreads turn (by rw [hsplit]; exact List.mem_append_right _ (List.mem_cons_self ..))
    rw [Call.isWrite_of_isRead hread] at hwrite
    cases hwrite
  | @written sources reads writes rest bundle bytes answer raised _ hinterrupted hgathers hencode
      hwrites hending =>
    refine ⟨hinterrupted, sources, reads, writes, bundle, bytes, answer, raised, rest, hgathers,
      hencode, hwrites, hending, ?_⟩
    obtain ⟨first, more, rfl, -, hmore⟩ := hwrites.exists_cons
    rw [List.append_assoc] at hsplit
    obtain ⟨between, rfl, hbetween⟩ := split_behind hgathers.isWrite hsplit hwrite
    cases between with
    | nil =>
      obtain ⟨rfl, -⟩ := List.cons.inj hbetween
      exact .inl ⟨List.append_nil reads, List.mem_cons_self ..⟩
    | cons _ between =>
      obtain ⟨rfl, hbehind⟩ := List.cons.inj hbetween
      obtain ⟨between, rfl, hrest⟩ := split_behind hmore hbehind hwrite
      obtain ⟨path, mapBytes, hmap, hcall, rfl, rfl, hsingle⟩ := hending.rest turn
        (by rw [hrest]; exact List.mem_append_right _ (List.mem_cons_self ..))
      obtain ⟨rfl, rfl⟩ : between = [] ∧ after = [] := by
        have hlength := congrArg List.length (hrest.symm.trans hsingle)
        simp only [List.length_append, List.length_cons, List.length_nil] at hlength
        exact ⟨List.eq_nil_of_length_eq_zero (by omega), List.eq_nil_of_length_eq_zero (by omega)⟩
      refine .inr ⟨path, mapBytes, hmap, hcall, rfl, rfl, ?_, rfl⟩
      rw [List.append_nil]

/-- No write starts when an interrupt has arrived. -/
theorem Course.not_interrupted (h : setting.Course interrupted turns result)
    {before after : List Turn} {turn : Turn} (hsplit : turns = before ++ turn :: after)
    (hwrite : turn.call.isWrite = true) :
    interrupted = false ∧ ∀ earlier ∈ before, earlier.raised = false := by
  obtain ⟨hinterrupted, sources, reads, writes, bundle, bytes, answer, raised, rest, hgathers, -,
    hwrites, -, hplace⟩ := h.write hsplit hwrite
  refine ⟨hinterrupted, ?_⟩
  rcases hplace with ⟨rfl, -⟩ | ⟨path, mapBytes, -, -, -, rfl, rfl, -⟩
  · exact hgathers.raised
  · refine List.forall_mem_append.mpr ⟨hgathers.raised, ?_⟩
    simpa using hwrites.any_raised

/-- A run that is interrupted before its first write does nothing but read. -/
theorem Course.reads_only (h : setting.Course interrupted turns result)
    (hraised : interrupted = true ∨ ∃ before turn after, turns = before ++ turn :: after ∧
      turn.raised = true ∧ ∀ early ∈ before ++ [turn], early.call.isWrite = false) :
    ∀ turn ∈ turns, turn.call.isRead = true := by
  cases h with
  | unwritten hreads => exact hreads
  | @written sources reads writes rest _ _ _ _ _ hinterrupted hgathers _ hwrites =>
    exfalso
    rcases hraised with hinterrupted' | ⟨front, turn, back, hsplit, hraised, hfront⟩
    · rw [hinterrupted] at hinterrupted'
      cases hinterrupted'
    · -- The turn of the interrupt is one of those before the first write, where none arrives.
      obtain ⟨first, more, rfl, hfirst, -⟩ := hwrites.exists_cons
      have hsame : (front ++ [turn]) ++ back = reads ++ first :: (more ++ rest) := by
        simpa using hsplit.symm
      obtain ⟨between, rfl, -⟩ := split_behind hfront hsame hfirst
      have hunraised := hgathers.raised turn (by simp)
      rw [hraised] at hunraised
      cases hunraised

/-- A run that only reads fails, and it fails with an interrupt that has arrived if nothing is
wrong with what it has read. -/
theorem Course.fails (h : setting.Course interrupted turns result)
    (hreads : ∀ turn ∈ turns, turn.call.isRead = true) : ∃ failure, result = .error failure ∧
      (interruptedAfter interrupted turns = true → (∀ turn ∈ turns, setting.Accepts turn) →
        failure = .interrupted) := by
  cases h with
  | unwritten _ hfailure => exact ⟨_, rfl, hfailure⟩
  | written _ _ _ hwrites =>
    obtain ⟨first, more, rfl, hfirst, -⟩ := hwrites.exists_cons
    rw [Call.isWrite_of_isRead (hreads first (by simp))] at hfirst
    cases hfirst

/-- A run that is interrupted while it writes its output does not write a map to another file. -/
theorem Course.late {path : Path} (h : setting.Course interrupted turns result)
    (hmap : setting.plan.sourceMap = some (.file path)) (hother : setting.plan.output ≠ .file path)
    (hraised : ∃ turn ∈ turns, setting.plan.output.IsCall turn.call ∧ turn.raised = true)
    (hsucceeded : ∀ turn ∈ turns, setting.plan.output.IsCall turn.call → turn.succeeded = true) :
    result = .error .interrupted ∧ ∀ turn ∈ turns, ∀ bytes, turn.call ≠ .writeFile path bytes := by
  obtain ⟨turn, hturn, hcall, hraised⟩ := hraised
  have hread := hcall.not_isRead
  cases h with
  | unwritten hreads =>
    rw [hreads turn hturn] at hread
    cases hread
  | @written sources reads writes rest _ _ _ raised _ _ hgathers _ hwrites hending =>
    have hanswer := hwrites.answer_eq_ok fun turn hturn =>
      hsucceeded turn (List.mem_append_left _ (List.mem_append_right _ hturn))
        ⟨_, hwrites.call_mem hturn⟩
    have hwritten : turn ∈ writes := by
      rcases List.mem_append.mp hturn with hturn | hrest
      · refine (List.mem_append.mp hturn).resolve_left fun hturn => ?_
        rw [hgathers.isRead turn hturn] at hread
        cases hread
      · obtain ⟨path', bytes, hmap', hcall', -⟩ := hending.rest turn hrest
        obtain rfl := MapStream.file.inj (Option.some.inj (hmap.symm.trans hmap'))
        exact absurd (hcall' ▸ hcall).eq_file hother
    obtain rfl : raised = true := hwrites.any_raised ▸ List.any_eq_true.mpr ⟨turn, hwritten, hraised⟩
    obtain ⟨rfl, rfl⟩ := hending.not_mapped (hanswer ▸ rfl) hmap
    rw [List.append_nil]
    refine ⟨rfl, List.forall_mem_append.mpr ⟨fun turn hturn bytes hcall => ?_,
      fun turn hturn bytes hcall => ?_⟩⟩
    · have hread := hgathers.isRead turn hturn
      rw [hcall] at hread
      cases hread
    · have hcalls : setting.plan.output.IsCall turn.call := ⟨_, hwrites.call_mem hturn⟩
      exact hother (hcall ▸ hcalls).eq_file

end Setting

/-! ### Runs in a world -/

/-- An output has received bytes, all of them and nothing else, and nothing else was changed. -/
def OutputStream.Received (output : OutputStream) (bytes : List UInt8) (world world' : World) : Prop :=
  match output with
  | .standard => world'.stdout = world.stdout ++ bytes ∧ world'.files = world.files
  | .file path => world'.files.node? (Files.way path) = some (.file bytes) ∧
    (∀ w ≠ Files.way path, world'.files.node? w = world.files.node? w) ∧ world'.stdout = world.stdout

/-- What is said on the standard error does not matter. -/
theorem OutputStream.Received.stderr {output : OutputStream} {bytes : List UInt8}
    {world world' : World} (h : output.Received bytes world world') (stderr : String) :
    output.Received bytes world { world' with stderr } := by
  cases output <;> exact h

namespace World

section

variable {world : World}

end

variable [LegacyCoding]

/-- A run with a world takes a course that the world answers so. -/
theorem press_course (options : Options) (directory : Path) (standard : Option Charset)
    (world : World) : ∃ turns stderr,
      (Setting.ofOptions options directory standard).Course world.interrupted turns
        (world.play (press options directory standard).run).1 ∧
      world.Answers turns ∧
      (world.play (press options directory standard).run).2 = { world.after turns with stderr } := by
  obtain ⟨turns, stderr, hholds, hanswers, hafter⟩ :=
    world.play_holds (press options directory standard).run
  exact ⟨turns, stderr, Setting.ends_run hholds, hanswers, hafter⟩

end World

/-! ### Failures with texts -/

namespace World

variable {options : Options} {directory : Path} {standard : Option Charset} {world : World}

/-- What an interrupt stops, in a run that takes some turns from a world to another one. -/
structure Interruption [LegacyCoding] (setting : Setting) (world : World) (turns : List Turn)
    (result : Except Failure Unit) (world' : World) : Prop where
  answers : world.Answers turns
  calls : world'.calls = world.calls ++ turns.map Turn.call
  /-- No write starts after the call during which an interrupt arrives. -/
  noWrite : ∀ before turn after, turns = before ++ turn :: after → turn.call.isWrite = true →
    world.interrupted = false ∧ ∀ earlier ∈ before, earlier.raised = false
  /-- An interrupt before the first write keeps the run from writing at all. -/
  early : (world.interrupted = true ∨ ∃ before turn after, turns = before ++ turn :: after ∧
      turn.raised = true ∧ ∀ early ∈ before ++ [turn], early.call.isWrite = false) →
    world'.files = world.files ∧ world'.stdout = world.stdout ∧ ∃ failure, result = .error failure ∧
      ((∀ turn ∈ turns, setting.Accepts turn) → failure = .interrupted ∧ failure.exitCode = 130)
  /-- An interrupt while the output is written, with success, keeps the run from writing the map to a
  file. -/
  late : ∀ path, setting.plan.sourceMap = some (.file path) →
    (∃ turn ∈ turns, setting.plan.output.IsCall turn.call ∧ turn.raised = true) →
    (∀ turn ∈ turns, setting.plan.output.IsCall turn.call → turn.succeeded = true) →
    result = .error .interrupted ∧ ∀ turn ∈ turns, ∀ bytes, turn.call ≠ .writeFile path bytes

/-- Nothing is written after an interrupt. -/
theorem press_interrupted [LegacyCoding] (options : Options) (directory : Path)
    (standard : Option Charset) (world : World) : ∃ turns,
    Interruption (.ofOptions options directory standard) world turns
      (world.play (press options directory standard).run).1
      (world.play (press options directory standard).run).2 := by
  obtain ⟨turns, stderr, hcourse, hanswers, hafter⟩ := press_course options directory standard world
  refine ⟨turns, hanswers, hafter ▸ calls_after world turns, fun _ _ _ => hcourse.not_interrupted,
    fun hraised => ?_, fun path hmap => hcourse.late hmap (Plan.output_ne_map hmap)⟩
  have hreads := hcourse.reads_only hraised
  obtain ⟨failure, hresult, hfailure⟩ := hcourse.fails hreads
  obtain ⟨hfiles, hstdout⟩ := after_reads world hreads
  refine ⟨hafter ▸ hfiles, hafter ▸ hstdout, failure, hresult, fun haccepts => ?_⟩
  have hinterrupted : interruptedAfter world.interrupted turns = true := by
    rcases hraised with hinterrupted | ⟨before, turn, after, rfl, hraised, -⟩
    · rw [interruptedAfter, hinterrupted, Bool.true_or]
    · rw [interruptedAfter, Bool.or_eq_true_iff]
      exact .inr (List.any_eq_true.mpr ⟨turn, List.mem_append_right _ (List.mem_cons_self ..), hraised⟩)
  rw [hfailure hinterrupted haccepts]
  exact ⟨rfl, rfl⟩

/-! ### Effects -/

end World
end EcmaPress

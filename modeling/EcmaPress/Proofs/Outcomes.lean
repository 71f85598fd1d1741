import EcmaPress.CommandLine.Invoke
import EcmaPress.Proofs.Messages
import EcmaPress.Proofs.Worlds

/-!
# What a failed invocation says

A run reports what it does for those who look for errors in the program, and nobody else is told. So
unless a filter is asked for, all that an invocation says about a run is the message of its failure,
with a line feed behind it. An interrupted run says nothing.
-/

namespace EcmaPress

/-! ### Quiet dialogues -/

namespace Dialogue

/-- A dialogue says nothing but reports of some kind, whatever it is answered. -/
def Quiet {α : Type} (kind : Report → Prop) : Dialogue α → Prop
  | .done _ => True
  | .call _ next => ∀ answer, (next answer).Quiet kind
  | .askInterrupted next => ∀ answer, (next answer).Quiet kind
  | .report r next => kind r ∧ next.Quiet kind
  | .complain _ _ => False

variable {α β : Type} {kind : Report → Prop}

theorem Quiet.bind {d : Dialogue α} {f : α → Dialogue β} (h : d.Quiet kind)
    (hf : ∀ value, (f value).Quiet kind) : (d.bind f).Quiet kind := by
  induction d with
  | done value => exact hf value
  | call c next ih => exact fun answer => ih answer (h answer)
  | askInterrupted next ih => exact fun answer => ih answer (h answer)
  | report r next ih => exact ⟨h.1, ih h.2⟩
  | complain => exact h.elim

end Dialogue

namespace Task

/-- A task says nothing but reports of some kind, whatever it is answered. -/
def Quiet {α : Type} (kind : Report → Prop) (task : Task α) : Prop :=
  Dialogue.Quiet kind task.run

variable {α β : Type} {kind : Report → Prop}

theorem Quiet.bind {task : Task α} {f : α → Task β} (h : task.Quiet kind)
    (hf : ∀ value, (f value).Quiet kind) : (task >>= f).Quiet kind := by
  refine Dialogue.Quiet.bind h fun result => ?_
  cases result with
  | ok value => exact hf value
  | error failure => trivial

theorem quiet_pure (value : α) : Quiet kind (pure value) :=
  trivial

theorem quiet_call (c : Call) : Quiet kind (Task.call c) :=
  fun _ => trivial

theorem quiet_check : Quiet kind Task.check := by
  intro interrupted
  cases interrupted <;> exact trivial

theorem quiet_ofExcept {ε : Type} (failure : ε → Failure) (value : Except ε α) :
    Quiet kind (Task.ofExcept failure value) := by
  cases value <;> exact trivial

end Task

namespace World

variable {α β : Type}

/-- What is behind a dialogue is played in the world that the dialogue leaves behind. -/
theorem play_bind (d : Dialogue α) (f : α → Dialogue β) (world : World) :
    world.play (d.bind f) = (world.play d).2.play (f (world.play d).1) := by
  induction d generalizing world with
  | done value => rfl
  | call c next ih => exact ih _ _
  | askInterrupted next ih => exact ih _ _
  | report r next ih => exact ih _
  | complain text next ih => exact ih _

/-- Where no report of its kind is shown, a quiet dialogue leaves nothing on the standard error. -/
theorem play_quiet {kind : Report → Prop} {d : Dialogue α} (h : d.Quiet kind) (world : World)
    (hfilter : ∀ r, kind r → world.filter.admits r = false) :
    (world.play d).2.stderr = world.stderr ∧ (world.play d).2.filter = world.filter := by
  induction d generalizing world with
  | done value => exact ⟨rfl, rfl⟩
  | call c next ih =>
    have hsame := world.filter_answer c
    obtain ⟨hstderr, hafter⟩ := ih _ (h _) (world.answer c).2 (by rwa [hsame])
    exact ⟨hstderr.trans (world.stderr_answer c), hafter.trans hsame⟩
  | askInterrupted next ih => exact ih _ (h _) world hfilter
  | report r next ih =>
    rw [play, if_neg (by simp [hfilter r h.1])]
    exact ih h.2 world hfilter
  | complain => exact h.elim

end World

/-! ### What is told of a run -/

/-- A report for those who look for errors in the program. -/
def Report.IsDetail (r : Report) : Prop :=
  r.level = .debug

theorem Filter.admits_standard (r : Report) : Filter.standard.admits r = decide (r.level = .error) := by
  cases r <;> rfl

theorem Task.quiet_report {r : Report} (h : r.level = .debug) : Quiet Report.IsDetail (Task.report r) :=
  ⟨h, trivial⟩

namespace Setting

open EcmaPress.Task

variable (setting : Setting)

theorem quiet_print (program : Program) : (setting.print program).Quiet Report.IsDetail := by
  unfold print
  by_cases hobfuscates : setting.options.obfuscates = true
  · rw [if_pos hobfuscates]
    exact (quiet_report rfl).bind fun _ => quiet_pure _
  · rw [if_neg hobfuscates]
    exact quiet_pure _

theorem quiet_assemble (bundle : Bundle) : (setting.assemble bundle).Quiet Report.IsDetail := by
  unfold assemble
  dsimp only
  split
  · exact quiet_pure _
  · exact (quiet_report rfl).bind fun _ => quiet_pure _
  · exact (quiet_report rfl).bind fun _ => quiet_pure _

variable [LegacyCoding]

theorem quiet_readInput (input : InputStream) : (setting.readInput input).Quiet Report.IsDetail := by
  unfold readInput
  refine quiet_check.bind fun _ => ?_
  cases input with
  | standard =>
    refine (quiet_call _).bind fun answer => ?_
    refine quiet_check.bind fun _ => ?_
    refine (quiet_ofExcept _ _).bind fun bytes => ?_
    exact quiet_ofExcept _ _
  | file path =>
    refine (quiet_call _).bind fun answer => ?_
    refine (quiet_ofExcept _ _).bind fun bytes => ?_
    exact quiet_ofExcept _ _

theorem quiet_gather (bundle : Bundle) (inputs : List InputStream) :
    (setting.gather bundle inputs).Quiet Report.IsDetail := by
  induction inputs generalizing bundle with
  | nil => exact quiet_pure bundle
  | cons input rest ih =>
    refine (setting.quiet_readInput input).bind fun text => ?_
    refine quiet_check.bind fun _ => ?_
    refine (quiet_ofExcept _ _).bind fun program => ?_
    refine (setting.quiet_print program).bind fun printed => ?_
    exact ih _

theorem quiet_writeFile (path : Path) (text : String) :
    (setting.writeFile path text).Quiet Report.IsDetail := by
  refine (quiet_ofExcept _ _).bind fun bytes => ?_
  refine (quiet_call _).bind fun answer => ?_
  exact quiet_ofExcept _ _

theorem quiet_writeOutput (text : String) : (setting.writeOutput text).Quiet Report.IsDetail := by
  unfold writeOutput
  cases setting.plan.output with
  | file path => exact setting.quiet_writeFile path text
  | standard =>
    refine (quiet_ofExcept _ _).bind fun bytes => ?_
    refine (quiet_call _).bind fun answer => ?_
    refine (quiet_ofExcept _ _).bind fun _ => ?_
    refine (quiet_call _).bind fun flushed => ?_
    exact quiet_ofExcept _ _

/-- All that a run says is for those who look for errors in the program. -/
theorem quiet_run : setting.run.Quiet Report.IsDetail := by
  refine (quiet_report rfl).bind fun _ => ?_
  refine (quiet_report rfl).bind fun _ => ?_
  refine (setting.quiet_gather _ _).bind fun bundle => ?_
  refine quiet_check.bind fun _ => ?_
  refine (setting.quiet_assemble bundle).bind fun assembled => ?_
  refine (setting.quiet_writeOutput _).bind fun _ => ?_
  cases assembled.2 with
  | none => exact quiet_pure _
  | some entry => exact quiet_check.bind fun _ => setting.quiet_writeFile _ _

end Setting

theorem quiet_pressHere [LegacyCoding] (options : Options) (directory : Except StreamError Path)
    (standard : Option Charset) :
    (pressHere options directory standard).Quiet Report.IsDetail := by
  refine (Task.quiet_ofExcept _ _).bind fun directory => ?_
  exact (Setting.ofOptions options directory standard).quiet_run

/-- Whether a text is one line, with the line feed that ends it. -/
def IsLine (text : String) : Prop :=
  ∃ words, text = words ++ "\n" ∧ '\n' ∉ words.toList

theorem isLine_append {words : String} : IsLine (words ++ "\n") ↔ '\n' ∉ words.toList := by
  constructor
  · rintro ⟨words', heq, hwords⟩
    rw [String.append_left_inj] at heq
    rwa [heq]
  · intro hwords
    exact ⟨words, rfl, hwords⟩

namespace World

theorem play_fail (failure : Failure) {world : World} (hfilter : world.filter = .standard) :
    world.play (Invocation.fail failure) =
      (failure.exitCode, { world with stderr := world.stderr ++ (failure.message ++ "\n") }) := by
  have hshown : world.filter.admits (.failed failure) = true := by
    rw [hfilter, Filter.admits_standard]
    rfl
  rw [Invocation.fail, play, if_pos hshown, play, printLine, String.append_assoc]
  rfl

/-- What is told of a failed run. -/
theorem play_pressFor [LegacyCoding] {surroundings : Surroundings} {options : Options} {world : World}
    {failure : Failure} (hfilter : world.filter = .standard)
    (hfails : (world.play
      (pressHere options surroundings.directory surroundings.standard).run).1 = .error failure) :
    (world.play (Invocation.pressFor surroundings options)).1 = failure.exitCode ∧
    (world.play (Invocation.pressFor surroundings options)).2.stderr =
      world.stderr ++ if failure = .interrupted then "" else failure.message ++ "\n" := by
  have hhidden : ∀ r : Report, r.IsDetail → world.filter.admits r = false := by
    intro r hr
    rw [hfilter, Filter.admits_standard, show r.level = .debug from hr]
    rfl
  have hquiet := quiet_pressHere options surroundings.directory surroundings.standard
  unfold Task.Quiet at hquiet
  obtain ⟨hstderr, hsame⟩ := play_quiet hquiet world hhidden
  have hplay : world.play (Invocation.pressFor surroundings options) =
      (world.play (pressHere options surroundings.directory surroundings.standard).run).2.play
        (Invocation.conclude
          (world.play (pressHere options surroundings.directory surroundings.standard).run).1) := by
    rw [Invocation.pressFor, play, if_neg (by simp [hhidden (.options options) rfl])]
    exact play_bind _ Invocation.conclude world
  rw [hplay, hfails, ← hstderr]
  generalize (world.play (pressHere options surroundings.directory surroundings.standard).run).2 =
    after at hsame
  cases failure with
  | interrupted => exact ⟨rfl, (String.append_empty).symm⟩
  | source | decode | encode | file | stream =>
    have hstandard := hsame.trans hfilter
    exact ⟨congrArg Prod.fst (play_fail _ hstandard), congrArg (·.2.stderr) (play_fail _ hstandard)⟩

end World

/-- If no filter is asked for, a failed run is told by its message, which is one line unless a text
that it quotes has a line feed. An interrupted run is not told at all. So it is for every command
line that asks for the run. -/
theorem invoke_failed [LegacyCoding] {surroundings : Surroundings} {options : Options} {world : World}
    {failure : Failure} (hlog : surroundings.environment "CRIMP_LOG" = none)
    (hfilter : world.filter = filterOf surroundings.environment) (hstderr : world.stderr = "")
    (hfails : (world.play
      (pressHere options surroundings.directory surroundings.standard).run).1 = .error failure) :
    let told := world.play (Invocation.pressFor surroundings options)
    (∀ argv : List String, requestOf (Charset.preferred surroundings.environment) argv.tail =
      .ok (.run options) → world.play (invoke surroundings argv) = told) ∧
    told.1 = failure.exitCode ∧
    (failure = .interrupted → told.1 = 130 ∧ told.2.stderr = "") ∧
    (failure ≠ .interrupted → told.2.stderr = failure.message ++ "\n" ∧
      (IsLine told.2.stderr ↔ ∀ quote ∈ failure.quotes, '\n' ∉ quote.toList)) := by
  intro told
  have hstandard : world.filter = .standard := by
    rw [hfilter, filterOf, hlog]
    rfl
  obtain ⟨hcode, htext⟩ := World.play_pressFor hstandard hfails
  rw [hstderr, String.empty_append] at htext
  refine ⟨fun argv hrequest => ?_, hcode, ?_, ?_⟩
  · simp only [invoke, hrequest]
    rfl
  · rintro rfl
    exact ⟨hcode, htext⟩
  · intro hfailure
    rw [if_neg hfailure] at htext
    have hline : told.2.stderr = failure.message ++ "\n" := htext
    refine ⟨hline, ?_⟩
    rw [hline, isLine_append, failure.lineFeed_mem_message]
    push Not
    rfl

open scoped LegacyCoding in
/-- The name of the file that is missing is told, and the number of the error. -/
theorem invoke_failed_missing : ∃ told : Nat × World,
    World.play (invoke ⟨fun _ => none, .ok "/", none, ⟨"", "", "", ""⟩⟩ ["crimp", "a.js"])
      { filter := .standard } = told ∧
    told.1 = 2 ∧ told.2.stderr = "a.js: No such file or directory (os error 2)\n" ∧
    IsLine told.2.stderr := by
  have hrequest : requestOf (Charset.preferred fun _ => none) ["a.js"] =
      .ok (.run { inputs := ["a.js"] }) := by decide +kernel
  have hfails : (World.play (pressHere { inputs := ["a.js"] } (.ok "/") none).run
      { filter := .standard }).1 = .error (.file "a.js" (.system 2)) := by decide +kernel
  have hmessage : Failure.message (.file "a.js" (.system 2)) ++ "\n" =
      "a.js: No such file or directory (os error 2)\n" := by decide +kernel
  obtain ⟨hinvoke, hcode, -, htold⟩ :=
    @invoke_failed _ ⟨fun _ => none, .ok "/", none, ⟨"", "", "", ""⟩⟩ _ { filter := .standard } _ rfl rfl
      rfl hfails
  obtain ⟨htext, hline⟩ := htold nofun
  refine ⟨_, hinvoke ["crimp", "a.js"] hrequest, hcode, htext.trans hmessage, hline.mpr ?_⟩
  decide +kernel

open scoped LegacyCoding in
/-- A string with a line feed behind a backslash is a token, and an error that it is the cause of is
told in two lines. -/
theorem invoke_lines :
    let surroundings : Surroundings := ⟨fun _ => none, .ok "/", none, ⟨"", "", "", ""⟩⟩
    let world : World := { filter := .standard, stdin := .ok "a \"b\\\nc\"".toUTF8.toList }
    let told := world.play (invoke surroundings ["crimp"])
    told.1 = 1 ∧ told.2.stderr = "Unexpected '\"b\\\nc\"' at 1:3 in '<stdin>'\n" ∧
      ¬ IsLine told.2.stderr := by
  intro surroundings world told
  have htold : told.1 = 1 ∧
      told.2.stderr = "Unexpected '\"b\\\nc\"' at 1:3 in '<stdin>'" ++ "\n" := by
    decide +kernel
  refine ⟨htold.1, htold.2, ?_⟩
  rw [htold.2, isLine_append]
  decide +kernel

end EcmaPress

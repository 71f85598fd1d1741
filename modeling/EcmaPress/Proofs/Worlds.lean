import EcmaPress.Proofs.Turns

/-!
# Effects on worlds

What the turns of a dialogue leave behind in the world that it is played with. Only writes change
files and the standard output, each of them only what it is about.
-/

namespace EcmaPress

/-! ### Files -/

namespace Files

variable {files written : Files} {path : Path} {bytes : List UInt8}

end Files

namespace World

variable {world : World} {turns : List Turn}

/-! ### Calls -/

/-- What a call may change in a world, and what it adds to the record of calls. Of the bytes that
it writes a front may be all that is written, and a flush may lose the end of those written before. -/
structure CallEffect (world : World) (c : Call) (world' : World) : Prop where
  files : world'.files = world.files ∨ ∃ path bytes part, c = .writeFile path bytes ∧
    part <+: bytes ∧ world.files.write path part = .ok world'.files
  stdout : world'.stdout = world.stdout ∨
    (∃ bytes part, c = .writeStandard bytes ∧ part <+: bytes ∧
      world'.stdout = world.stdout ++ part) ∨
    c = .flushStandard ∧ world'.stdout <+: world.stdout
  calls : world'.calls = world.calls ++ [c]
  interrupted : world'.interrupted = (world.interrupted || world.raises world.calls.length c)

/-- The files after an attempt to write one of them. -/
theorem getD_toOption {result : Except StreamError Files} (files : Files) :
    result.toOption.getD files = files ∨ result = .ok (result.toOption.getD files) := by
  cases result with
  | error error => exact .inl rfl
  | ok written => exact .inr rfl

theorem answer_effect (world : World) (c : Call) : world.CallEffect c (world.answer c).2 := by
  unfold answer
  cases world.refusal world.calls.length c with
  | some refusal =>
    cases c with
    | readStandard | readFile => exact ⟨.inl rfl, .inl rfl, rfl, rfl⟩
    | flushStandard =>
      exact ⟨.inl rfl, .inr (.inr ⟨rfl, List.take_prefix _ world.stdout⟩), rfl, rfl⟩
    | writeStandard bytes =>
      exact ⟨.inl rfl, .inr (.inl ⟨bytes, _, rfl, List.take_prefix _ bytes, rfl⟩), rfl, rfl⟩
    | writeFile path bytes =>
      refine ⟨?_, .inl rfl, rfl, rfl⟩
      dsimp only [refuse]
      cases refusal.written with
      | none => exact .inl rfl
      | some n =>
        exact (getD_toOption world.files).imp_right fun hwrite =>
          ⟨path, bytes, _, rfl, List.take_prefix n bytes, hwrite⟩
  | none =>
    cases c with
    | readStandard | readFile | flushStandard => exact ⟨.inl rfl, .inl rfl, rfl, rfl⟩
    | writeStandard bytes =>
      exact ⟨.inl rfl, .inr (.inl ⟨bytes, bytes, rfl, List.prefix_refl bytes, rfl⟩), rfl, rfl⟩
    | writeFile path bytes =>
      refine ⟨(getD_toOption world.files).imp_right fun hwrite => ?_, .inl rfl, rfl, rfl⟩
      exact ⟨path, bytes, bytes, rfl, List.prefix_refl bytes, hwrite⟩

/-- A call that was answered without an error was not refused. -/
theorem answer_eq_ok {c : Call} {value : c.Answer} (h : (world.answer c).1 = .ok value) :
    world.answer c = (world.calling c).perform c := by
  unfold answer at h ⊢
  cases hrefusal : world.refusal world.calls.length c with
  | some refusal =>
    rw [hrefusal] at h
    cases h
  | none => rfl

/-- The world after some turns. -/
def after (world : World) : List Turn → World
  | [] => world
  | turn :: turns => (world.answer turn.call).2.after turns

/-- The world answers so, and its interrupts arrive so. -/
def Answers (world : World) : List Turn → Prop
  | [] => True
  | turn :: turns => turn.answer = (world.answer turn.call).1 ∧
    turn.raised = world.raises world.calls.length turn.call ∧ (world.answer turn.call).2.Answers turns

/-- A call neither reads nor changes what is told, and which reports are. -/
theorem answer_told (world : World) (stderr : String) (filter : Filter) (c : Call) :
    ({ world with stderr, filter } : World).answer c =
      ((world.answer c).1, { (world.answer c).2 with stderr, filter }) := by
  unfold answer
  dsimp only
  cases world.refusal world.calls.length c <;> cases c <;> rfl

theorem filter_answer (world : World) (c : Call) : (world.answer c).2.filter = world.filter :=
  congrArg (fun outcome => outcome.2.filter) (world.answer_told world.stderr world.filter c)

theorem stderr_answer (world : World) (c : Call) : (world.answer c).2.stderr = world.stderr :=
  congrArg (fun outcome => outcome.2.stderr) (world.answer_told world.stderr world.filter c)

theorem answer_stderr (world : World) (stderr : String) (c : Call) :
    ({ world with stderr } : World).answer c =
      ((world.answer c).1, { (world.answer c).2 with stderr }) :=
  (world.answer_told stderr world.filter c).trans (by rw [← filter_answer world c])

theorem answers_stderr (stderr : String) :
    ({ world with stderr } : World).Answers turns ↔ world.Answers turns := by
  induction turns generalizing world with
  | nil => exact Iff.rfl
  | cons turn turns ih =>
    rw [Answers, Answers, answer_stderr, ih]

theorem after_stderr (stderr : String) :
    ({ world with stderr } : World).after turns = { world.after turns with stderr } := by
  induction turns generalizing world with
  | nil => rfl
  | cons turn turns ih => rw [after, after, answer_stderr, ih]

/-- A dialogue that is played is held in the turns that the world answers so. Reports and complaints
change the standard error and nothing else. -/
theorem play_holds {α : Type} (d : Dialogue α) (world : World) : ∃ turns stderr,
    d.Holds world.interrupted turns (world.play d).1 ∧ world.Answers turns ∧
      (world.play d).2 = { world.after turns with stderr } := by
  have hspoken {next : Dialogue α} {world world' : World}
      (hworld : ∃ said, world' = { world with stderr := said })
      (h : ∃ turns stderr, next.Holds world'.interrupted turns (world'.play next).1 ∧
        world'.Answers turns ∧ (world'.play next).2 = { world'.after turns with stderr }) :
      ∃ turns stderr, next.Holds world.interrupted turns (world'.play next).1 ∧
        world.Answers turns ∧ (world'.play next).2 = { world.after turns with stderr } := by
    obtain ⟨said, rfl⟩ := hworld
    obtain ⟨turns, stderr, hholds, hanswers, hafter⟩ := h
    rw [answers_stderr] at hanswers
    rw [after_stderr] at hafter
    exact ⟨turns, stderr, hholds, hanswers, hafter⟩
  induction d generalizing world with
  | done value => exact ⟨[], world.stderr, .done value, trivial, rfl⟩
  | call c next ih =>
    obtain ⟨turns, stderr, hholds, hanswers, hafter⟩ := ih (world.answer c).1 (world.answer c).2
    rw [(world.answer_effect c).interrupted] at hholds
    exact ⟨_, stderr, .call _ _ hholds, ⟨rfl, rfl, hanswers⟩, hafter⟩
  | askInterrupted next ih =>
    obtain ⟨turns, stderr, hholds, hanswers, hafter⟩ := ih world.interrupted world
    exact ⟨turns, stderr, .ask hholds, hanswers, hafter⟩
  | report r next ih =>
    obtain ⟨turns, stderr, hholds, hanswers, hafter⟩ := hspoken (by split <;> exact ⟨_, rfl⟩)
      (ih (if world.filter.admits r then world.printLine r.text else world))
    exact ⟨turns, stderr, .report hholds, hanswers, hafter⟩
  | complain text next ih =>
    obtain ⟨turns, stderr, hholds, hanswers, hafter⟩ := hspoken ⟨_, rfl⟩
      (ih { world with stderr := world.stderr ++ text })
    exact ⟨turns, stderr, .complain hholds, hanswers, hafter⟩

/-! ### What turns change -/

theorem after_append (turns more : List Turn) :
    world.after (turns ++ more) = (world.after turns).after more := by
  induction turns generalizing world with
  | nil => rfl
  | cons turn turns ih => exact ih

theorem calls_after (world : World) (turns : List Turn) :
    (world.after turns).calls = world.calls ++ turns.map Turn.call := by
  induction turns generalizing world with
  | nil => simp [after]
  | cons turn turns ih =>
    rw [after, ih, (world.answer_effect turn.call).calls, List.append_assoc]
    rfl

/-- What no call of the turns changes is the same behind them. -/
theorem after_keeps {α : Type} (part : World → α) (h : ∀ turn ∈ turns, ∀ world : World,
    part (world.answer turn.call).2 = part world) : part (world.after turns) = part world := by
  induction turns generalizing world with
  | nil => rfl
  | cons turn turns ih =>
    obtain ⟨hturn, hturns⟩ := List.forall_mem_cons.mp h
    rw [after, ih hturns, hturn]

/-- Without a call to it, the standard output stays as it is. -/
theorem stdout_after (h : ∀ turn ∈ turns, turn.call.isOutput = false) :
    (world.after turns).stdout = world.stdout := by
  refine after_keeps World.stdout fun turn hturn world => ?_
  have hcall := h turn hturn
  rcases (world.answer_effect turn.call).stdout with hsame | ⟨bytes, part, hwrite, -⟩ | ⟨hflush, -⟩
  · exact hsame
  · rw [hwrite] at hcall
    cases hcall
  · rw [hflush] at hcall
    cases hcall

/-- Without a write to a file, the files stay as they are. -/
theorem files_after (h : ∀ turn ∈ turns, ∀ path bytes, turn.call ≠ .writeFile path bytes) :
    (world.after turns).files = world.files := by
  refine after_keeps World.files fun turn hturn world => ?_
  rcases (world.answer_effect turn.call).files with hsame | ⟨path, bytes, part, hcall, -⟩
  · exact hsame
  · exact absurd hcall (h turn hturn path bytes)

/-- Turns that only read leave files and the standard output alone. -/
theorem after_reads (world : World) (h : ∀ turn ∈ turns, turn.call.isRead = true) :
    (world.after turns).files = world.files ∧ (world.after turns).stdout = world.stdout := by
  refine ⟨files_after fun turn hturn path bytes hcall => ?_,
    stdout_after fun turn hturn => Call.isOutput_of_isRead (h turn hturn)⟩
  have hread := h turn hturn
  rw [hcall] at hread
  cases hread

end World
end EcmaPress

import EcmaPress.Proofs.Turns
import EcmaPress.Run.Press
import Mathlib.Data.List.Forall2

/-!
# Courses of a run

Which turns a run may take and how it may end, whatever it is answered and whenever it is
interrupted. Up to its first write a run only reads. The output is written when all inputs have
been read, decoded, parsed and bundled and the output has been encoded, and if no interrupt has
arrived by then; a source map in a file of its own is written only when the output has been.
-/

namespace EcmaPress

/-- The calls that write bytes to an output. The standard output is flushed behind them. -/
def OutputStream.calls (output : OutputStream) (bytes : List UInt8) : List Call :=
  match output with
  | .standard => [.writeStandard bytes, .flushStandard]
  | .file path => [.writeFile path bytes]

/-- Whether a turn was answered without an error. -/
def Turn.succeeded (turn : Turn) : Bool :=
  turn.answer.isOk

/-- Turns in which bytes are written to an output, how that ends, and whether an interrupt arrives
meanwhile. The standard output is flushed only if it has taken the bytes. -/
inductive OutputStream.Writes (bytes : List UInt8) :
    OutputStream → List Turn → Except StreamError Unit → Bool → Prop
  | file (path : Path) (answer : Except StreamError Unit) (raised : Bool) :
    Writes bytes (.file path) [⟨.writeFile path bytes, answer, raised⟩] answer raised
  | refused (error : StreamError) (raised : Bool) :
    Writes bytes .standard [⟨.writeStandard bytes, .error error, raised⟩] (.error error) raised
  | flushed (raised : Bool) (answer : Except StreamError Unit) (raised' : Bool) :
    Writes bytes .standard
      [⟨.writeStandard bytes, .ok (), raised⟩, ⟨.flushStandard, answer, raised'⟩] answer
      (raised || raised')

namespace OutputStream.Writes

variable {output : OutputStream} {bytes : List UInt8} {turns : List Turn}
  {answer : Except StreamError Unit} {raised : Bool}

/-- The first turn is a write, and no other one is. -/
theorem exists_cons (h : Writes bytes output turns answer raised) : ∃ turn more, turns = turn :: more ∧
    turn.call.isWrite = true ∧ ∀ other ∈ more, other.call.isWrite = false := by
  cases h with
  | file | refused => exact ⟨_, [], rfl, rfl, nofun⟩
  | flushed => exact ⟨_, _, rfl, rfl, List.forall_mem_singleton.mpr rfl⟩

theorem any_raised (h : Writes bytes output turns answer raised) : turns.any Turn.raised = raised := by
  cases h with
  | file | refused => simp
  | flushed => simp

theorem call_mem (h : Writes bytes output turns answer raised) {turn : Turn} (hturn : turn ∈ turns) :
    turn.call ∈ output.calls bytes := by
  revert turn
  cases h with
  | file | refused => simp [calls]
  | flushed => simp [calls]

/-- The bytes are written if all their turns succeed. -/
theorem answer_eq_ok (h : Writes bytes output turns answer raised)
    (hturns : ∀ turn ∈ turns, turn.succeeded = true) : answer = .ok () := by
  have hok : answer.isOk = true := by
    cases h with
    | file | refused => exact hturns _ (List.mem_singleton_self _)
    | flushed =>
      exact hturns ⟨.flushStandard, answer, _⟩
        (List.mem_cons_of_mem _ (List.mem_singleton_self _))
  cases answer with
  | ok => rfl
  | error => cases hok

end OutputStream.Writes

namespace Setting

variable (setting : Setting)

/-! ### What a run works out -/

/-- The bundle of inputs with their texts, behind what is in it already. -/
def bundled (bundle : Bundle) : List (InputStream × String) → Except SyntaxError Bundle
  | [] => .ok bundle
  | (input, text) :: rest => do
    let program ← parse text (some input.name)
    bundled (bundle.push (setting.plan.sourceName input) (program.print setting.options.rules)) rest

/-- The address of the source map of a bundle, if one is asked for: that of its file, or one that
holds the map itself. -/
def address? (bundle : Bundle) : Option String :=
  match setting.plan.sourceMap with
  | none => none
  | some (.file _) => setting.plan.mapUrl?
  | some .inline => some (bundle.sourceMap setting.plan.outputName).toDataUrl

/-- The whole output for a bundle. -/
def output (bundle : Bundle) : String :=
  bundle.text ++ ((setting.address? bundle).map trailer).getD ""

/-- The source map for a bundle and the file that it goes to, if it has one of its own. -/
def separateMap? (bundle : Bundle) : Option (Path × String) :=
  match setting.plan.sourceMap with
  | some (.file path) => some (path, (bundle.sourceMap setting.plan.outputName).text)
  | _ => none

/-- The character set of the output. -/
def outputCharset : Charset :=
  match setting.plan.output with
  | .standard => setting.standardCharset
  | .file _ => setting.options.charset

/-- A failure with the output. -/
def outputFailure (error : StreamError) : Failure :=
  match setting.plan.output with
  | .standard => .stream error
  | .file path => setting.fileFailure path error

variable [LegacyCoding]

/-! ### Reads -/

/-- A text is read from an input in a turn, and no interrupt arrives. -/
inductive Reads : InputStream → Turn → String → Prop
  | standard {bytes : List UInt8} {text : String} :
    setting.standardCharset.decode bytes = .ok text →
    Reads .standard ⟨.readStandard, .ok bytes, false⟩ text
  | file {path : Path} {bytes : List UInt8} {text : String} :
    setting.options.charset.decode bytes = .ok text →
    Reads (.file path) ⟨.readFile path, .ok bytes, false⟩ text

/-- A turn that is not a read, or is answered with a text that can be decoded. -/
def Accepts : Turn → Prop
  | ⟨.readStandard, answer, _⟩ =>
    ∃ bytes text, answer = .ok bytes ∧ setting.standardCharset.decode bytes = .ok text
  | ⟨.readFile _, answer, _⟩ =>
    ∃ bytes text, answer = .ok bytes ∧ setting.options.charset.decode bytes = .ok text
  | ⟨.writeStandard _, _, _⟩ | ⟨.flushStandard, _, _⟩ | ⟨.writeFile _ _, _, _⟩ => True

/-- All inputs are read, and they make a bundle. -/
structure Gathers (sources : List (InputStream × String)) (reads : List Turn) (bundle : Bundle) :
    Prop where
  inputs : sources.map Prod.fst = setting.plan.inputs
  reads : List.Forall₂ (fun source turn => setting.Reads source.1 turn source.2) sources reads
  bundled : setting.bundled {} sources = .ok bundle

/-! ### Courses -/

/-- What comes behind the write of the output, which was answered and perhaps interrupted: nothing
if the output failed or the map is no file, and else the write of the map. -/
inductive Ending (bundle : Bundle) (answer : Except StreamError Unit) (raised : Bool) :
    List Turn → Except Failure Unit → Prop
  | failed {error : StreamError} : answer = .error error →
    Ending bundle answer raised [] (.error (setting.outputFailure error))
  | complete : answer = .ok () → setting.separateMap? bundle = none →
    Ending bundle answer raised [] (.ok ())
  | interrupted {path : Path} {text : String} : answer = .ok () →
    setting.separateMap? bundle = some (path, text) → raised = true →
    Ending bundle answer raised [] (.error .interrupted)
  | unencodable {path : Path} {text : String} {error : EncodeError} : answer = .ok () →
    setting.separateMap? bundle = some (path, text) → raised = false →
    setting.options.charset.encode text = .error error →
    Ending bundle answer raised [] (.error (.encode error))
  | mapped {path : Path} {text : String} {bytes : List UInt8} : answer = .ok () →
    setting.separateMap? bundle = some (path, text) → raised = false →
    setting.options.charset.encode text = .ok bytes →
    ∀ (mapAnswer : Except StreamError Unit) (mapRaised : Bool),
      Ending bundle answer raised [⟨.writeFile path bytes, mapAnswer, mapRaised⟩]
        (mapAnswer.mapError (setting.fileFailure path))

/-- The course of a run. If it fails before it writes, it has only read; and it is the interrupt
that it fails with if one has arrived and nothing is wrong with what it has read. -/
inductive Course (interrupted : Bool) : List Turn → Except Failure Unit → Prop
  | unwritten {turns : List Turn} {failure : Failure} : (∀ turn ∈ turns, turn.call.isRead = true) →
    (interruptedAfter interrupted turns = true → (∀ turn ∈ turns, setting.Accepts turn) →
      failure = .interrupted) →
    Course interrupted turns (.error failure)
  | written {sources : List (InputStream × String)} {reads writes rest : List Turn} {bundle : Bundle}
      {bytes : List UInt8} {answer : Except StreamError Unit} {raised : Bool}
      {result : Except Failure Unit} : interrupted = false → setting.Gathers sources reads bundle →
    setting.outputCharset.encode (setting.output bundle) = .ok bytes →
    setting.plan.output.Writes bytes writes answer raised →
    setting.Ending bundle answer raised rest result →
    Course interrupted (reads ++ writes ++ rest) result

section

variable {setting : Setting} {interrupted : Bool} {turns : List Turn}

open EcmaPress.Task

theorem Reads.turn {input : InputStream} {turn : Turn} {text : String}
    (h : setting.Reads input turn text) : turn.call.isRead = true ∧ turn.raised = false := by
  cases h <;> exact ⟨rfl, rfl⟩

theorem Gathers.turn {sources : List (InputStream × String)} {reads : List Turn} {bundle : Bundle}
    (h : setting.Gathers sources reads bundle) :
    ∀ turn ∈ reads, turn.call.isRead = true ∧ turn.raised = false := by
  obtain ⟨-, hreads, -⟩ := h
  induction hreads with
  | nil => exact nofun
  | cons hread _ ih => exact List.forall_mem_cons.mpr ⟨hread.turn, ih⟩

theorem Gathers.isRead {sources : List (InputStream × String)} {reads : List Turn} {bundle : Bundle}
    (h : setting.Gathers sources reads bundle) : ∀ turn ∈ reads, turn.call.isRead = true :=
  fun turn hturn => (h.turn turn hturn).1

theorem Gathers.isWrite {sources : List (InputStream × String)} {reads : List Turn} {bundle : Bundle}
    (h : setting.Gathers sources reads bundle) : ∀ turn ∈ reads, turn.call.isWrite = false :=
  fun turn hturn => Call.isWrite_of_isRead (h.isRead turn hturn)

theorem Gathers.raised {sources : List (InputStream × String)} {reads : List Turn} {bundle : Bundle}
    (h : setting.Gathers sources reads bundle) : ∀ turn ∈ reads, turn.raised = false :=
  fun turn hturn => (h.turn turn hturn).2

/-- What was read is decoded. -/
theorem ends_decode {charset : Charset} {failure : StreamError → Failure}
    {answer : Except StreamError (List UInt8)} {result : Except Failure String}
    (h : Ends interrupted (do
      let bytes ← ofExcept failure answer
      ofExcept .decode (charset.decode bytes)) turns result) :
    turns = [] ∧
      ((∃ bytes text, answer = .ok bytes ∧ charset.decode bytes = .ok text ∧ result = .ok text) ∨
        ∃ failure, result = .error failure ∧
          ¬ ∃ bytes text, answer = .ok bytes ∧ charset.decode bytes = .ok text) := by
  rcases h.of_ofExcept_bind with ⟨error, rfl, rfl, rfl⟩ | ⟨bytes, rfl, h⟩
  · exact ⟨rfl, .inr ⟨_, rfl, by simp⟩⟩
  · obtain ⟨rfl, rfl⟩ := h.of_ofExcept
    refine ⟨rfl, ?_⟩
    cases hdecode : charset.decode bytes with
    | ok text => exact .inl ⟨bytes, text, rfl, hdecode, rfl⟩
    | error error => exact .inr ⟨_, rfl, by simp [hdecode]⟩

/-- An input is read in one turn, unless an interrupt has arrived. -/
theorem ends_readInput {input : InputStream} {result : Except Failure String}
    (h : Ends interrupted (setting.readInput input) turns result) :
    (interrupted = true ∧ turns = [] ∧ result = .error .interrupted) ∨
    interrupted = false ∧ ∃ turn, turns = [turn] ∧ turn.call.isRead = true ∧
      ((∃ text, result = .ok text ∧ (turn.raised = false → setting.Reads input turn text)) ∨
        ∃ failure, result = .error failure ∧
          (setting.Accepts turn → turn.raised = true ∧ failure = .interrupted)) := by
  rcases h.of_check_bind with hraised | ⟨rfl, h⟩
  · exact .inl hraised
  refine .inr ⟨rfl, ?_⟩
  cases input with
  | standard =>
    obtain ⟨answer, raised, more, rfl, hanswer⟩ := Ends.of_call_bind h
    rcases hanswer.of_check_bind with ⟨hraised, rfl, rfl⟩ | ⟨-, hdecode⟩
    · exact ⟨_, rfl, rfl, .inr ⟨_, rfl, fun _ => ⟨hraised, rfl⟩⟩⟩
    · obtain ⟨rfl, ⟨bytes, text, rfl, hread, rfl⟩ | ⟨failure, rfl, hwrong⟩⟩ := ends_decode hdecode
      · refine ⟨_, rfl, rfl, .inl ⟨text, rfl, ?_⟩⟩
        rintro rfl
        exact .standard hread
      · exact ⟨_, rfl, rfl, .inr ⟨failure, rfl, fun haccepts => absurd haccepts hwrong⟩⟩
  | file path =>
    obtain ⟨answer, raised, more, rfl, hanswer⟩ := Ends.of_call_bind h
    obtain ⟨rfl, ⟨bytes, text, rfl, hdecode, rfl⟩ | ⟨failure, rfl, hwrong⟩⟩ := ends_decode hanswer
    · refine ⟨_, rfl, rfl, .inl ⟨text, rfl, ?_⟩⟩
      rintro rfl
      exact .file hdecode
    · exact ⟨_, rfl, rfl, .inr ⟨failure, rfl, fun haccepts => absurd haccepts hwrong⟩⟩

omit [LegacyCoding] in
theorem ends_print {program : Program} {result : Except Failure Printed}
    (h : Ends interrupted (setting.print program) turns result) :
    turns = [] ∧ result = .ok (program.print setting.options.rules) := by
  unfold print at h
  split at h
  · exact (Ends.of_report_bind h).of_pure
  · exact h.of_pure

/-- An input is read, parsed and printed in one turn, or the task fails with it. -/
theorem ends_source {α : Type} {input : InputStream} {next : Printed → Task α}
    {result : Except Failure α}
    (h : Ends interrupted (do
      let text ← setting.readInput input
      check
      let program ← ofExcept .source (parse text (some input.name))
      let printed ← setting.print program
      next printed) turns result) :
    (∃ failure, result = .error failure ∧ (∀ turn ∈ turns, turn.call.isRead = true) ∧
      (interruptedAfter interrupted turns = true → (∀ turn ∈ turns, setting.Accepts turn) →
        failure = .interrupted)) ∨
    interrupted = false ∧ ∃ turn text program rest, turns = turn :: rest ∧
      setting.Reads input turn text ∧ parse text (some input.name) = .ok program ∧
      Ends false (next (program.print setting.options.rules)) rest result := by
  rcases h.of_bind with ⟨failure, rfl, hread⟩ | ⟨text, reads, rest, rfl, hread, h⟩
  · refine .inl ⟨failure, rfl, ?_⟩
    rcases ends_readInput hread with ⟨-, rfl, hresult⟩ | ⟨rfl, turn, rfl, hreads, hread⟩
    · exact ⟨nofun, fun _ _ => Except.error.inj hresult⟩
    · refine ⟨by simpa using hreads, fun _ haccepts => ?_⟩
      rcases hread with ⟨text, hresult, -⟩ | ⟨failure', hresult, hfailure⟩
      · cases hresult
      · rw [Except.error.inj hresult]
        exact (hfailure (haccepts turn (List.mem_singleton_self _))).2
  · rcases ends_readInput hread with ⟨-, -, hresult⟩ | ⟨rfl, turn, rfl, hreads, hread⟩
    · cases hresult
    rcases hread with ⟨text', hresult, hread⟩ | ⟨failure, hresult, -⟩
    swap
    · cases hresult
    obtain rfl := Except.ok.inj hresult
    have hturn : interruptedAfter false [turn] = turn.raised := by simp [interruptedAfter]
    rw [hturn] at h
    rcases h.of_check_bind with ⟨hraised, rfl, rfl⟩ | ⟨hraised, h⟩
    · exact .inl ⟨_, rfl, by simpa using hreads, fun _ _ => rfl⟩
    rw [hraised] at h
    rcases h.of_ofExcept_bind with ⟨error, -, rfl, rfl⟩ | ⟨program, hparse, h⟩
    · refine .inl ⟨_, rfl, by simpa using hreads, fun hinterrupted => ?_⟩
      rw [List.append_nil, hturn, hraised] at hinterrupted
      cases hinterrupted
    rcases h.of_bind with ⟨failure, -, hprint⟩ | ⟨printed, before, after, rfl, hprint, h⟩
    · cases (ends_print hprint).2
    obtain ⟨rfl, hprinted⟩ := ends_print hprint
    obtain rfl := Except.ok.inj hprinted
    rw [interruptedAfter_nil] at h
    exact .inr ⟨rfl, turn, text, program, after, rfl, hread hraised, hparse, h⟩

/-- Inputs are gathered by reads, one after the other, until one of them fails or an interrupt
arrives. -/
theorem ends_gather {inputs : List InputStream} {bundle : Bundle} {result : Except Failure Bundle}
    (h : Ends interrupted (setting.gather bundle inputs) turns result) :
    (∃ failure, result = .error failure ∧ (∀ turn ∈ turns, turn.call.isRead = true) ∧
      (interruptedAfter interrupted turns = true → (∀ turn ∈ turns, setting.Accepts turn) →
        failure = .interrupted)) ∨
    ∃ sources gathered, result = .ok gathered ∧ sources.map Prod.fst = inputs ∧
      List.Forall₂ (fun source turn => setting.Reads source.1 turn source.2) sources turns ∧
      setting.bundled bundle sources = .ok gathered := by
  induction inputs generalizing interrupted bundle turns with
  | nil =>
    obtain ⟨rfl, rfl⟩ := h.of_pure
    exact .inr ⟨[], bundle, rfl, rfl, .nil, rfl⟩
  | cons input inputs ih =>
    rw [gather] at h
    rcases ends_source h with hfails | ⟨rfl, turn, text, program, rest, rfl, hread, hparse, h⟩
    · exact .inl hfails
    obtain ⟨hreads, hraised⟩ := hread.turn
    rcases ih h with ⟨failure, rfl, hreads', hfailure⟩ |
      ⟨sources, gathered, rfl, rfl, hsources, hbundled⟩
    · refine .inl ⟨failure, rfl, List.forall_mem_cons.mpr ⟨hreads, hreads'⟩,
        fun hinterrupted haccepts => ?_⟩
      rw [interruptedAfter_cons, hraised, Bool.or_false] at hinterrupted
      exact hfailure hinterrupted (List.forall_mem_cons.mp haccepts).2
    · refine .inr ⟨(input, text) :: sources, gathered, rfl, rfl, .cons hread hsources, ?_⟩
      rw [bundled, hparse]
      exact hbundled

omit [LegacyCoding] in
theorem ends_assemble {bundle : Bundle} {result : Except Failure (String × Option (Path × String))}
    (h : Ends interrupted (setting.assemble bundle) turns result) :
    turns = [] ∧ result = .ok (setting.output bundle, setting.separateMap? bundle) := by
  unfold assemble at h
  simp only [output, separateMap?, address?]
  cases hmap : setting.plan.sourceMap with
  | none =>
    simp only [hmap] at h
    obtain ⟨rfl, rfl⟩ := h.of_pure
    simp
  | some stream =>
    cases stream with
    | inline =>
      simp only [hmap] at h
      obtain ⟨rfl, rfl⟩ := (Ends.of_report_bind h).of_pure
      simp
    | file path =>
      have hurl : setting.plan.mapUrl? = some (setting.plan.outputDirectory.relative path).toUrl := by
        rw [Plan.mapUrl?, hmap]
      simp only [hmap, hurl] at h ⊢
      obtain ⟨rfl, rfl⟩ := (Ends.of_report_bind h).of_pure
      simp

/-- A file is written in one turn, if its text can be encoded. -/
theorem ends_writeFile {path : Path} {text : String} {result : Except Failure Unit}
    (h : Ends interrupted (setting.writeFile path text) turns result) :
    (∃ error, setting.options.charset.encode text = .error error ∧ turns = [] ∧
      result = .error (.encode error)) ∨
    ∃ bytes answer raised, setting.options.charset.encode text = .ok bytes ∧
      turns = [⟨.writeFile path bytes, answer, raised⟩] ∧
      result = answer.mapError (setting.fileFailure path) := by
  rcases h.of_ofExcept_bind with ⟨error, hencode, rfl, rfl⟩ | ⟨bytes, hencode, h⟩
  · exact .inl ⟨error, hencode, rfl, rfl⟩
  · obtain ⟨answer, raised, more, rfl, hanswer⟩ := Ends.of_call_bind h
    obtain ⟨rfl, rfl⟩ := hanswer.of_ofExcept
    exact .inr ⟨bytes, answer, raised, hencode, rfl, rfl⟩

/-- The output is written if it can be encoded. -/
theorem ends_writeOutput {text : String} {result : Except Failure Unit}
    (h : Ends interrupted (setting.writeOutput text) turns result) :
    (∃ failure, turns = [] ∧ result = .error failure) ∨
    ∃ bytes answer raised, setting.outputCharset.encode text = .ok bytes ∧
      setting.plan.output.Writes bytes turns answer raised ∧
      result = answer.mapError setting.outputFailure := by
  unfold writeOutput at h
  unfold outputCharset outputFailure
  cases houtput : setting.plan.output with
  | file path =>
    simp only [houtput] at h
    rcases ends_writeFile h with ⟨error, -, rfl, rfl⟩ | ⟨bytes, answer, raised, hencode, rfl, rfl⟩
    · exact .inl ⟨_, rfl, rfl⟩
    · exact .inr ⟨bytes, answer, raised, hencode, .file path answer raised, rfl⟩
  | standard =>
    simp only [houtput] at h
    rcases h.of_ofExcept_bind with ⟨error, -, rfl, rfl⟩ | ⟨bytes, hencode, h⟩
    · exact .inl ⟨_, rfl, rfl⟩
    obtain ⟨answer, raised, more, rfl, hanswer⟩ := Ends.of_call_bind h
    rcases hanswer.of_ofExcept_bind with ⟨error, rfl, rfl, rfl⟩ | ⟨_, rfl, hflush⟩
    · exact .inr ⟨bytes, _, raised, hencode, .refused error raised, rfl⟩
    obtain ⟨answer, raised', more, rfl, hflushed⟩ := Ends.of_call_bind hflush
    obtain ⟨rfl, rfl⟩ := hflushed.of_ofExcept
    exact .inr ⟨bytes, answer, _, hencode, .flushed raised answer raised', rfl⟩

/-- The map is written behind the output. -/
theorem ends_map {bundle : Bundle} {raised : Bool} {result : Except Failure Unit}
    (h : Ends raised (match setting.separateMap? bundle with
      | none => pure ()
      | some (path, text) => do
        check
        setting.writeFile path text) turns result) :
    setting.Ending bundle (.ok ()) raised turns result := by
  cases hmap : setting.separateMap? bundle with
  | none =>
    rw [hmap] at h
    obtain ⟨rfl, rfl⟩ := h.of_pure
    exact .complete rfl hmap
  | some map =>
    obtain ⟨path, text⟩ := map
    rw [hmap] at h
    rcases h.of_check_bind with ⟨hraised, rfl, rfl⟩ | ⟨hraised, h⟩
    · exact .interrupted rfl hmap hraised
    · rcases ends_writeFile h with
        ⟨error, hencode, rfl, rfl⟩ | ⟨bytes, answer, raised', hencode, rfl, rfl⟩
      · exact .unencodable rfl hmap hraised hencode
      · exact .mapped rfl hmap hraised hencode answer raised'

/-- Every run takes one of the courses. -/
theorem ends_run {result : Except Failure Unit} (h : Ends interrupted setting.run turns result) :
    setting.Course interrupted turns result := by
  have h := Ends.of_report_bind (Ends.of_report_bind h)
  rcases h.of_bind with ⟨failure, rfl, hgather⟩ | ⟨bundle, reads, rest, rfl, hgather, h⟩
  · rcases ends_gather hgather with ⟨failure', hresult, hreads, hfailure⟩ | ⟨_, _, hresult, -⟩
    · obtain rfl := Except.error.inj hresult
      exact .unwritten hreads hfailure
    · cases hresult
  rcases ends_gather hgather with
    ⟨_, hresult, -⟩ | ⟨sources, bundle', hresult, hinputs, hsources, hbundled⟩
  · cases hresult
  obtain rfl := Except.ok.inj hresult
  have hgathers : setting.Gathers sources reads bundle := ⟨hinputs, hsources, hbundled⟩
  have hreads := hgathers.isRead
  have hafter : interruptedAfter interrupted reads = interrupted := by
    have hnone : reads.any Turn.raised = false :=
      List.any_eq_false.mpr fun turn hturn => by simp [hgathers.raised turn hturn]
    rw [interruptedAfter, hnone, Bool.or_false]
  rw [hafter] at h
  rcases h.of_check_bind with ⟨-, rfl, rfl⟩ | ⟨rfl, h⟩
  · rw [List.append_nil]
    exact .unwritten hreads fun _ _ => rfl
  rcases h.of_bind with ⟨failure, -, hassemble⟩ | ⟨assembled, before, after, rfl, hassemble, h⟩
  · cases (ends_assemble hassemble).2
  obtain ⟨rfl, hassembled⟩ := ends_assemble hassemble
  obtain rfl := Except.ok.inj hassembled
  rcases h.of_bind with ⟨failure, rfl, houtput⟩ | ⟨_, before, after, rfl, houtput, h⟩
  · rcases ends_writeOutput houtput with ⟨failure', rfl, hresult⟩ |
      ⟨bytes, answer, raised, hencode, hwrites, hresult⟩
    · refine .unwritten (by simpa using hreads) fun hinterrupted => ?_
      rw [List.nil_append, List.append_nil, hafter] at hinterrupted
      cases hinterrupted
    · cases answer with
      | ok => cases hresult
      | error error =>
        rw [Except.error.inj hresult, List.nil_append, ← List.append_nil (reads ++ _)]
        exact .written rfl hgathers hencode hwrites (.failed rfl)
  · rcases ends_writeOutput houtput with ⟨_, -, hresult⟩ |
      ⟨bytes, answer, raised, hencode, hwrites, hresult⟩
    · cases hresult
    · cases answer with
      | error error => cases hresult
      | ok =>
        have hraised : interruptedAfter (interruptedAfter false []) before = raised := by
          simp [interruptedAfter, hwrites.any_raised]
        rw [hraised] at h
        rw [List.nil_append, ← List.append_assoc]
        exact .written rfl hgathers hencode hwrites (ends_map h)

end
end Setting
end EcmaPress

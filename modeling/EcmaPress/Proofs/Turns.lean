import EcmaPress.Run.World

/-!
# Turns of a dialogue

A dialogue as its surroundings see it: the calls that it makes, with their answers and the
interrupts that arrive during them. What is shown of a dialogue here holds whatever it is answered
and whenever it is interrupted; a modelled world is one of the surroundings that it may be held
with.
-/

namespace EcmaPress

/-- Whether a call changes a file or adds to the standard output. -/
def Call.isWrite : Call → Bool
  | .readStandard | .readFile _ | .flushStandard => false
  | .writeStandard _ | .writeFile .. => true

/-- Whether a call writes to the standard output or flushes it. -/
def Call.isOutput : Call → Bool
  | .writeStandard _ | .flushStandard => true
  | .readStandard | .readFile _ | .writeFile .. => false

/-- Whether a call reads. -/
def Call.isRead : Call → Bool
  | .readStandard | .readFile _ => true
  | .writeStandard _ | .flushStandard | .writeFile .. => false

theorem Call.isWrite_of_isRead {c : Call} (h : c.isRead = true) : c.isWrite = false := by
  cases c with
  | readStandard | readFile => rfl
  | writeStandard | flushStandard | writeFile => cases h

theorem Call.isOutput_of_isRead {c : Call} (h : c.isRead = true) : c.isOutput = false := by
  cases c with
  | readStandard | readFile => rfl
  | writeStandard | flushStandard | writeFile => cases h

/-- A call with its answer, and whether an interrupt arrived during it. -/
structure Turn where
  call : Call
  answer : Except StreamError call.Answer
  raised : Bool

/-- Whether an interrupt has arrived when some turns are over. -/
def interruptedAfter (interrupted : Bool) (turns : List Turn) : Bool :=
  interrupted || turns.any Turn.raised

@[simp] theorem interruptedAfter_nil (interrupted : Bool) :
    interruptedAfter interrupted [] = interrupted :=
  Bool.or_false _

theorem interruptedAfter_cons (interrupted : Bool) (turn : Turn) (turns : List Turn) :
    interruptedAfter interrupted (turn :: turns) =
      interruptedAfter (interrupted || turn.raised) turns := by
  simp [interruptedAfter, Bool.or_assoc]

namespace Dialogue

/-- A dialogue may be held in some turns and end with a value, from a point where an interrupt has
arrived already or has not. Any call may have any answer, and an interrupt may arrive during it. -/
inductive Holds {α : Type} : Bool → Dialogue α → List Turn → α → Prop
  | done {interrupted : Bool} (value : α) : Holds interrupted (.done value) [] value
  | call {interrupted : Bool} {c : Call} {next : Except StreamError c.Answer → Dialogue α}
      {turns : List Turn} {value : α} (answer : Except StreamError c.Answer) (raised : Bool) :
      Holds (interrupted || raised) (next answer) turns value →
      Holds interrupted (.call c next) (⟨c, answer, raised⟩ :: turns) value
  | ask {interrupted : Bool} {next : Bool → Dialogue α} {turns : List Turn} {value : α} :
      Holds interrupted (next interrupted) turns value →
      Holds interrupted (.askInterrupted next) turns value
  | report {interrupted : Bool} {r : Report} {next : Dialogue α} {turns : List Turn} {value : α} :
      Holds interrupted next turns value → Holds interrupted (.report r next) turns value
  | complain {interrupted : Bool} {text : String} {next : Dialogue α} {turns : List Turn} {value : α} :
      Holds interrupted next turns value → Holds interrupted (.complain text next) turns value

variable {α β : Type} {interrupted : Bool} {turns : List Turn}

/-- A dialogue behind another one is held behind it. -/
theorem Holds.of_bind {d : Dialogue α} {f : α → Dialogue β} {value : β}
    (h : Holds interrupted (d.bind f) turns value) : ∃ first before after,
      turns = before ++ after ∧ Holds interrupted d before first ∧
        Holds (interruptedAfter interrupted before) (f first) after value := by
  induction d generalizing interrupted turns with
  | done first => exact ⟨first, [], turns, rfl, .done first, (interruptedAfter_nil _).symm ▸ h⟩
  | call c next ih =>
    cases h with
    | call answer raised h =>
    obtain ⟨first, before, after, rfl, hbefore, hafter⟩ := ih answer h
    exact ⟨first, _, after, rfl, .call answer raised hbefore, interruptedAfter_cons .. ▸ hafter⟩
  | askInterrupted next ih =>
    cases h with
    | ask h =>
    obtain ⟨first, before, after, rfl, hbefore, hafter⟩ := ih interrupted h
    exact ⟨first, before, after, rfl, .ask hbefore, hafter⟩
  | report r next ih =>
    cases h with
    | report h =>
    obtain ⟨first, before, after, rfl, hbefore, hafter⟩ := ih h
    exact ⟨first, before, after, rfl, .report hbefore, hafter⟩
  | complain text next ih =>
    cases h with
    | complain h =>
    obtain ⟨first, before, after, rfl, hbefore, hafter⟩ := ih h
    exact ⟨first, before, after, rfl, .complain hbefore, hafter⟩

end Dialogue

namespace Task

/-- A task may end so after some turns. -/
def Ends {α : Type} (interrupted : Bool) (task : Task α) (turns : List Turn)
    (result : Except Failure α) : Prop :=
  Dialogue.Holds interrupted task.run turns result

variable {α β : Type} {interrupted : Bool} {turns : List Turn}

theorem Ends.of_pure {value : α} {result : Except Failure α}
    (h : Ends interrupted (pure value) turns result) : turns = [] ∧ result = .ok value := by
  cases h
  exact ⟨rfl, rfl⟩

/-- A task of two steps fails in the first step, or ends as the second step does. -/
theorem Ends.of_bind {task : Task α} {f : α → Task β} {result : Except Failure β}
    (h : Ends interrupted (task >>= f) turns result) :
    (∃ failure, result = .error failure ∧ Ends interrupted task turns (.error failure)) ∨
    ∃ value before after, turns = before ++ after ∧ Ends interrupted task before (.ok value) ∧
      Ends (interruptedAfter interrupted before) (f value) after result := by
  obtain ⟨first, before, after, rfl, hfirst, hafter⟩ := Dialogue.Holds.of_bind h
  cases first with
  | ok value => exact .inr ⟨value, before, after, rfl, hfirst, hafter⟩
  | error failure =>
    cases hafter
    exact .inl ⟨failure, rfl, (List.append_nil before).symm ▸ hfirst⟩

theorem Ends.of_check {result : Except Failure Unit} (h : Ends interrupted Task.check turns result) :
    turns = [] ∧ result = if interrupted then .error .interrupted else .ok () := by
  cases h with
  | ask h =>
  cases interrupted <;> cases h <;> exact ⟨rfl, rfl⟩

theorem Ends.of_ofExcept {ε : Type} {failure : ε → Failure} {value : Except ε α}
    {result : Except Failure α} (h : Ends interrupted (Task.ofExcept failure value) turns result) :
    turns = [] ∧ result = value.mapError failure := by
  cases value <;> cases h <;> exact ⟨rfl, rfl⟩

/-! Steps in front of other steps -/

theorem Ends.of_report_bind {r : Report} {f : Unit → Task β} {result : Except Failure β}
    (h : Ends interrupted (Task.report r >>= f) turns result) :
    Ends interrupted (f ()) turns result := by
  cases h with
  | report h => exact h

theorem Ends.of_call_bind {c : Call} {f : Except StreamError c.Answer → Task β}
    {result : Except Failure β} (h : Ends interrupted (Task.call c >>= f) turns result) :
    ∃ answer raised more, turns = ⟨c, answer, raised⟩ :: more ∧
      Ends (interrupted || raised) (f answer) more result := by
  cases h with
  | call answer raised h => exact ⟨answer, raised, _, rfl, h⟩

theorem Ends.of_check_bind {f : Unit → Task β} {result : Except Failure β}
    (h : Ends interrupted (Task.check >>= f) turns result) :
    (interrupted = true ∧ turns = [] ∧ result = .error .interrupted) ∨
      (interrupted = false ∧ Ends interrupted (f ()) turns result) := by
  rcases h.of_bind with ⟨failure, rfl, hfirst⟩ | ⟨_, before, after, rfl, hfirst, hrest⟩
  · obtain ⟨rfl, hresult⟩ := hfirst.of_check
    cases interrupted with
    | true => exact .inl ⟨rfl, rfl, congrArg Except.error (Except.error.inj hresult)⟩
    | false => cases hresult
  · obtain ⟨rfl, hresult⟩ := hfirst.of_check
    cases interrupted with
    | true => cases hresult
    | false => exact .inr ⟨rfl, hrest⟩

theorem Ends.of_ofExcept_bind {ε : Type} {failure : ε → Failure} {value : Except ε α}
    {f : α → Task β} {result : Except Failure β}
    (h : Ends interrupted (Task.ofExcept failure value >>= f) turns result) :
    (∃ error, value = .error error ∧ turns = [] ∧ result = .error (failure error)) ∨
      ∃ first, value = .ok first ∧ Ends interrupted (f first) turns result := by
  cases value with
  | error error =>
    cases h
    exact .inl ⟨error, rfl, rfl, rfl⟩
  | ok first => exact .inr ⟨first, rfl, h⟩

end Task
end EcmaPress

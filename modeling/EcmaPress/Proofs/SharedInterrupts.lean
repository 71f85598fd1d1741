import Mathlib.Logic.Relation
import EcmaPress.Run.Interrupt

/-!
# Shared interrupts

What steps are answered with, in terms of what happened before alone. Handles are linked when a chain
of copies leads from one to the other, and a request under one handle is seen under all handles that
are linked to it, whichever of the request and the copies came first. So it is for the steps that are
taken while a step runs that can be cut short: its events stand between where it is entered and where
it is left.
-/

namespace EcmaPress
namespace Interrupts

/-! ### What a log tells -/

/-- Something that happens when steps are taken, with what is answered. -/
inductive Event where
  | made (handle : Nat)
  | copied (handle copy : Nat)
  | requested (handle : Nat)
  | told (handle : Nat) (pending : Bool)
  | checked (handle : Nat) (passed : Bool)
  | refused (handle : Nat)
  | entered (handle : Nat)
  | left (handle : Nat) (passed : Bool)
  | astray
deriving DecidableEq, Repr

mutual

/-- The events of a step that is answered. A step that is answered as another one goes astray. -/
def events : Step → Answer → List Event
  | .new, .handle handle => [.made handle]
  | .clone handle, .handle copy => [.copied handle copy]
  | .request handle, .nothing => [.requested handle]
  | .isPending handle, .flag pending => [.told handle pending]
  | .check handle, .checked passed => [.checked handle passed]
  | .blocking handle _, .refused => [.refused handle]
  | .blocking handle steps, .ran answers passed =>
    .entered handle :: (eventsAll steps answers ++ [.left handle passed])
  | _, _ => [.astray]

/-- The events of some steps that are answered one by one. -/
def eventsAll : List Step → List Answer → List Event
  | [], [] => []
  | step :: steps, answer :: answers => events step answer ++ eventsAll steps answers
  | _, _ => [.astray]

end

/-- Whether an event has made a handle. -/
def Event.addsHandle : Event → Bool
  | .made _ | .copied .. => true
  | _ => false

/-- How many handles there are behind a log: the one that there is from the start, and one for each
event that has made one. -/
def handleCount (log : List Event) : Nat := log.countP Event.addsHandle + 1

/-- One handle has been made as a copy of another. -/
def IsCopy (log : List Event) (handle copy : Nat) : Prop :=
  .copied handle copy ∈ log

/-- Copies lead from one handle to the other, in either direction. -/
def Linked (log : List Event) : Nat → Nat → Prop :=
  Relation.EqvGen (IsCopy log)

/-- The interrupt of a handle has been requested, under the handle itself or one linked to it. -/
def IsRequested (log : List Event) (handle : Nat) : Prop :=
  ∃ other, .requested other ∈ log ∧ Linked log other handle

/-- What may happen behind a log. -/
def Tells (log : List Event) : Event → Prop
  | .made handle | .copied _ handle => handle = handleCount log
  | .requested _ => True
  | .told handle pending => pending = true ↔ IsRequested log handle
  | .checked handle passed | .left handle passed => passed = false ↔ IsRequested log handle
  | .refused handle => IsRequested log handle
  | .entered handle => ¬ IsRequested log handle
  | .astray => False

/-! ### Runs -/

/-- The interrupts behind some steps. -/
def after (s : Interrupts) (steps : List Step) : Interrupts :=
  (s.takeAll steps).2

/-- What happens when some steps are taken. -/
def log (s : Interrupts) (steps : List Step) : List Event :=
  eventsAll steps (s.takeAll steps).1

mutual

/-- Whether a step works on a handle that there is, and so its own steps if it runs. -/
def canTake (s : Interrupts) : Step → Bool
  | .new => true
  | .clone handle | .request handle | .isPending handle | .check handle => handle < s.handles.length
  | .blocking handle steps => handle < s.handles.length &&
    (s.isPending handle || (s.setBlocking handle true).canTakeAll steps)

/-- Whether each of some steps works on handles that there are when it is taken. -/
def canTakeAll (s : Interrupts) : List Step → Bool
  | [] => true
  | step :: rest => s.canTake step && (s.take step).2.canTakeAll rest

end

variable {s : Interrupts} {history : List Event}

theorem log_cons (s : Interrupts) (step : Step) (rest : List Step) :
    s.log (step :: rest) = events step (s.take step).1 ++ (s.take step).2.log rest := by
  rw [log, takeAll, eventsAll]
  rfl

theorem log_append (s : Interrupts) (front back : List Step) :
    s.log (front ++ back) = s.log front ++ (s.after front).log back := by
  induction front generalizing s with
  | nil => rfl
  | cons step front ih =>
    rw [List.cons_append, log_cons, ih, log_cons, List.append_assoc]
    rfl

theorem canTakeAll_append {front back : List Step} (h : s.canTakeAll (front ++ back) = true) :
    s.canTakeAll front = true := by
  induction front generalizing s with
  | nil => rfl
  | cons step front ih =>
    simp only [List.cons_append, canTakeAll, Bool.and_eq_true] at h ⊢
    exact ⟨h.1, ih h.2⟩

theorem Linked.mono {more : List Event} {handle other : Nat} (h : Linked history handle other) :
    Linked (history ++ more) handle other := by
  have hle : IsCopy history ≤ IsCopy (history ++ more) :=
    fun _ _ hcopy => List.mem_append_left _ hcopy
  exact Relation.EqvGen.mono hle handle other h

theorem IsRequested.mono {more : List Event} {handle : Nat} (h : IsRequested history handle) :
    IsRequested (history ++ more) handle := by
  obtain ⟨other, hother, hlinked⟩ := h
  exact ⟨other, List.mem_append_left _ hother, hlinked.mono⟩

theorem mem_concat {event other : Event} :
    other ∈ history ++ [event] ↔ other ∈ history ∨ event = other := by
  rw [List.mem_append, List.mem_singleton, eq_comm (a := other)]

/-- Handles that are made are not requested. -/
theorem mem_requested_concat {event : Event} (hadds : event.addsHandle = true) {other : Nat} :
    .requested other ∈ history ++ [event] ↔ .requested other ∈ history := by
  rw [mem_concat, or_iff_left]
  rintro rfl
  cases hadds

/-! ### Flags -/

theorem target_modify (s : Interrupts) (handle other : Nat) (f : Flags → Flags) :
    (s.modify handle f).target other = s.target other := by
  simp only [target, modify, List.length_modify]

theorem getElem?_modify (s : Interrupts) (handle i : Nat) (f : Flags → Flags) :
    (s.modify handle f).flags[i]? =
      s.flags[i]?.map fun flags => if s.target handle = i then f flags else flags :=
  List.getElem?_modify ..

theorem modify_id (s : Interrupts) (handle : Nat) : s.modify handle id = s := by
  rw [modify, List.modify_id]

theorem target_concat_lt {flags : List Flags} {number handle : Nat} (h : handle < s.handles.length) :
    target ⟨flags, s.handles ++ [number]⟩ handle = s.target handle := by
  simp [target, List.getElem?_append_left h, List.getElem?_eq_getElem h]

theorem target_concat_length {flags : List Flags} {number : Nat} :
    target ⟨flags, s.handles ++ [number]⟩ s.handles.length = number := by
  simp [target]

/-- Handles that are added do not change what a handle stands for. -/
theorem target_of_handles {s' : Interrupts} (h : s.handles <+: s'.handles) {handle : Nat}
    (hhandle : handle < s.handles.length) : s'.target handle = s.target handle := by
  obtain ⟨more, hmore⟩ := h
  simp [target, ← hmore, List.getElem?_append_left hhandle, List.getElem?_eq_getElem hhandle]

/-- Whether a step is running under the flags with some number. -/
def IsRunning (s : Interrupts) (i : Nat) : Prop :=
  ∃ flags, s.flags[i]? = some flags ∧ flags.blocking = true

theorem isRunning_modify {handle i : Nat} {f : Flags → Flags} :
    (s.modify handle f).IsRunning i ↔ ∃ flags, s.flags[i]? = some flags ∧
      (if s.target handle = i then f flags else flags).blocking = true := by
  simp only [IsRunning, getElem?_modify, Option.map_eq_some_iff]
  constructor
  · rintro ⟨_, ⟨flags, hflags, rfl⟩, hblocking⟩
    exact ⟨flags, hflags, hblocking⟩
  · rintro ⟨flags, hflags, hblocking⟩
    exact ⟨_, ⟨flags, hflags, rfl⟩, hblocking⟩

theorem IsRunning.of_request {handle i : Nat} (h : (s.request handle).IsRunning i) :
    s.IsRunning i := by
  obtain ⟨flags, hflags, hblocking⟩ := isRunning_modify.mp h
  refine ⟨flags, hflags, ?_⟩
  split at hblocking <;> exact hblocking

/-- Where no step has been said to run, none runs that did not run before. -/
theorem IsRunning.of_setBlocking {handle i : Nat} {value : Bool}
    (h : (s.setBlocking handle value).IsRunning i) :
    s.target handle = i ∧ value = true ∨ s.target handle ≠ i ∧ s.IsRunning i := by
  obtain ⟨flags, hflags, hblocking⟩ := isRunning_modify.mp h
  split at hblocking
  · next htarget => exact .inl ⟨htarget, hblocking⟩
  · next htarget => exact .inr ⟨htarget, flags, hflags, hblocking⟩

/-- No step runs under new flags. -/
theorem IsRunning.of_append {more : List Flags} (hmore : ∀ flags ∈ more, flags = .clear)
    {handles : List Nat} {i : Nat} (h : IsRunning ⟨s.flags ++ more, handles⟩ i) : s.IsRunning i := by
  obtain ⟨flags, hflags, hblocking⟩ := h
  by_cases hi : i < s.flags.length
  · rw [List.getElem?_append_left hi] at hflags
    exact ⟨flags, hflags, hblocking⟩
  · rw [List.getElem?_append_right (Nat.le_of_not_lt hi)] at hflags
    rw [hmore flags (List.mem_of_getElem? hflags)] at hblocking
    cases hblocking

theorem isPending_setBlocking (s : Interrupts) (handle other : Nat) (value : Bool) :
    (s.setBlocking handle value).isPending other = s.isPending other := by
  rw [isPending, isPending, setBlocking, target_modify, getElem?_modify]
  cases s.flags[s.target other]? with
  | none => rfl
  | some flags =>
    rw [Option.map_some, Option.any_some, Option.any_some]
    split <;> rfl

/-! ### What the interrupts have to do with the log -/

/-- The interrupts behind a log: handles share flags when they are linked, and flags are pending
when some event has requested them. -/
structure Agrees (s : Interrupts) (history : List Event) : Prop where
  count : s.handles.length = handleCount history
  target_lt : ∀ handle < s.handles.length, s.target handle < s.flags.length
  copied : ∀ handle copy, IsCopy history handle copy →
    handle < s.handles.length ∧ copy < s.handles.length ∧ s.target handle = s.target copy
  linked : ∀ handle < s.handles.length, ∀ other < s.handles.length,
    s.target handle = s.target other → Linked history handle other
  requested : ∀ other, .requested other ∈ history → other < s.handles.length
  pending : ∀ i flags, s.flags[i]? = some flags →
    (flags.pending = true ↔ ∃ other, .requested other ∈ history ∧ s.target other = i)

theorem agrees_single : single.Agrees [] where
  count := rfl
  target_lt := by decide
  copied := fun _ _ hcopy => nomatch hcopy
  linked := by
    intro handle hhandle other hother _
    obtain rfl : handle = other := by
      rw [single, List.length_singleton] at hhandle hother
      omega
    exact .refl handle
  requested := nofun
  pending := by
    intro i flags hflags
    obtain rfl : flags = .clear := by
      simpa [single] using List.mem_of_getElem? hflags
    simp [Flags.clear]

namespace Agrees

theorem target_eq (h : s.Agrees history) {handle other : Nat} (hlinked : Linked history handle other) :
    s.target handle = s.target other := by
  induction hlinked with
  | rel handle copy hcopy => exact (h.copied handle copy hcopy).2.2
  | refl => rfl
  | symm _ _ _ ih => exact ih.symm
  | trans _ _ _ _ _ ih ih' => exact ih.trans ih'

/-- An interrupt is pending when it has been requested. -/
theorem isPending_iff (h : s.Agrees history) (handle : Nat) :
    s.isPending handle = true ↔ IsRequested history handle := by
  rw [isPending, Option.any_eq_true]
  constructor
  · rintro ⟨flags, hflags, hpending⟩
    obtain ⟨other, hother, htarget⟩ := (h.pending _ flags hflags).mp hpending
    have hhandle : handle < s.handles.length := by
      apply Nat.lt_of_not_le
      intro hle
      rw [target, List.getElem?_eq_none hle] at hflags
      simp at hflags
    exact ⟨other, hother, h.linked other (h.requested other hother) handle hhandle htarget⟩
  · rintro ⟨other, hother, hlinked⟩
    have htarget := h.target_eq hlinked
    have hlt : s.target handle < s.flags.length :=
      htarget ▸ h.target_lt other (h.requested other hother)
    have hflags := List.getElem?_eq_getElem hlt
    exact ⟨_, hflags, (h.pending _ _ hflags).mpr ⟨other, hother, htarget⟩⟩

/-- A check passes when nothing has been requested. -/
theorem not_isPending_iff (h : s.Agrees history) (handle : Nat) :
    (!s.isPending handle) = false ↔ IsRequested history handle := by
  rw [Bool.not_eq_false', h.isPending_iff]

/-! ### One event -/

/-- An event that makes no handle changes flags of one handle at most, and they are pending behind it
if they were or if it requests them. -/
theorem modify (h : s.Agrees history) {event : Event} (hadds : event.addsHandle = false) {handle : Nat}
    {f : Flags → Flags}
    (hrequested : ∀ other, event = .requested other → other = handle ∧ handle < s.handles.length)
    (hf : ∀ flags : Flags, (f flags).pending = true ↔
      flags.pending = true ∨ event = .requested handle) :
    (s.modify handle f).Agrees (history ++ [event]) where
  count := by
    rw [handleCount, List.countP_append, List.countP_singleton, hadds]
    exact h.count
  target_lt := by
    intro other hother
    rw [target_modify, Interrupts.modify, List.length_modify]
    exact h.target_lt other hother
  copied := by
    intro other copy hcopy
    rw [target_modify, target_modify]
    obtain hcopy | rfl := mem_concat.mp hcopy
    · exact h.copied other copy hcopy
    · cases hadds
  linked := by
    intro other hother other' hother' htarget
    rw [target_modify, target_modify] at htarget
    exact (h.linked other hother other' hother' htarget).mono
  requested := by
    intro other hother
    obtain hother | rfl := mem_concat.mp hother
    · exact h.requested other hother
    · obtain ⟨rfl, hhandle⟩ := hrequested other rfl
      exact hhandle
  pending := by
    intro i flags hflags
    rw [getElem?_modify, Option.map_eq_some_iff] at hflags
    obtain ⟨before, hbefore, rfl⟩ := hflags
    simp only [target_modify, mem_concat, or_and_right, exists_or, ← h.pending i before hbefore]
    split
    · next htarget =>
      rw [hf]
      refine or_congr_right ⟨fun hevent => ⟨handle, hevent, htarget⟩, ?_⟩
      rintro ⟨other, hevent, -⟩
      rw [hevent, (hrequested other hevent).1]
    · next htarget =>
      refine (or_iff_left ?_).symm
      rintro ⟨other, hevent, htarget'⟩
      exact htarget ((hrequested other hevent).1 ▸ htarget')

theorem request (h : s.Agrees history) {handle : Nat} (hhandle : handle < s.handles.length) :
    (s.request handle).Agrees (history ++ [.requested handle]) :=
  h.modify rfl (by rintro _ ⟨⟩; exact ⟨rfl, hhandle⟩) fun _ => iff_of_true rfl (.inr rfl)

theorem setBlocking (h : s.Agrees history) {event : Event} (hadds : event.addsHandle = false)
    (hrequests : ∀ other, event ≠ .requested other) (handle : Nat) (value : Bool) :
    (s.setBlocking handle value).Agrees (history ++ [event]) :=
  h.modify hadds (fun other hevent => absurd hevent (hrequests other))
    fun _ => (or_iff_left (hrequests handle)).symm

/-- An event that requests nothing and makes no handle need not change anything. -/
theorem unchanged (h : s.Agrees history) {event : Event} (hadds : event.addsHandle = false)
    (hrequests : ∀ other, event ≠ .requested other) : s.Agrees (history ++ [event]) := by
  have hagrees : (s.modify 0 id).Agrees (history ++ [event]) :=
    h.modify hadds (fun other hevent => absurd hevent (hrequests other))
      fun _ => (or_iff_left (hrequests 0)).symm
  rwa [modify_id] at hagrees

/-- One more handle, with flags of its own or with those of another handle. -/
theorem concat (h : s.Agrees history) {event : Event} (hadds : event.addsHandle = true)
    {more : List Flags} (hmore : ∀ flags ∈ more, flags = .clear)
    {number : Nat} (hnumber : number < (s.flags ++ more).length)
    (hcopied : ∀ handle copy, event = .copied handle copy →
      handle < s.handles.length ∧ copy = s.handles.length ∧ s.target handle = number)
    (hlinked : ∀ other < s.handles.length, s.target other = number →
      Linked (history ++ [event]) other s.handles.length) :
    Agrees ⟨s.flags ++ more, s.handles ++ [number]⟩ (history ++ [event]) where
  count := by
    rw [List.length_append, h.count, handleCount, handleCount, List.countP_append,
      List.countP_singleton, hadds]
    rfl
  target_lt := by
    intro handle hhandle
    rw [List.length_append, List.length_singleton] at hhandle
    obtain hlt | rfl := Nat.lt_succ_iff_lt_or_eq.mp hhandle
    · rw [target_concat_lt hlt, List.length_append]
      exact Nat.lt_add_right _ (h.target_lt handle hlt)
    · rwa [target_concat_length]
  copied := by
    intro handle copy hcopy
    rw [List.length_append, List.length_singleton]
    obtain hcopy | hevent := mem_concat.mp hcopy
    · obtain ⟨hhandle, hlt, htarget⟩ := h.copied handle copy hcopy
      rw [target_concat_lt hhandle, target_concat_lt hlt]
      exact ⟨Nat.lt_succ_of_lt hhandle, Nat.lt_succ_of_lt hlt, htarget⟩
    · obtain ⟨hhandle, rfl, htarget⟩ := hcopied handle copy hevent
      rw [target_concat_lt hhandle, target_concat_length]
      exact ⟨Nat.lt_succ_of_lt hhandle, Nat.lt_succ_self _, htarget⟩
  linked := by
    intro handle hhandle other hother htarget
    rw [List.length_append, List.length_singleton] at hhandle hother
    obtain hhandle | rfl := Nat.lt_succ_iff_lt_or_eq.mp hhandle
    · obtain hother | rfl := Nat.lt_succ_iff_lt_or_eq.mp hother
      · rw [target_concat_lt hhandle, target_concat_lt hother] at htarget
        exact (h.linked handle hhandle other hother htarget).mono
      · rw [target_concat_lt hhandle, target_concat_length] at htarget
        exact hlinked handle hhandle htarget
    · obtain hother | rfl := Nat.lt_succ_iff_lt_or_eq.mp hother
      · rw [target_concat_length, target_concat_lt hother] at htarget
        exact (hlinked other hother htarget.symm).symm
      · exact .refl _
  requested := by
    intro other hother
    rw [List.length_append]
    exact Nat.lt_add_right _ (h.requested other ((mem_requested_concat hadds).mp hother))
  pending := by
    intro i flags hflags
    have hold : (∃ other, .requested other ∈ history ++ [event] ∧
          target ⟨s.flags ++ more, s.handles ++ [number]⟩ other = i) ↔
        ∃ other, .requested other ∈ history ∧ s.target other = i :=
      exists_congr fun other => by
        rw [mem_requested_concat hadds]
        exact and_congr_right fun hother => by rw [target_concat_lt (h.requested other hother)]
    rw [hold]
    by_cases hi : i < s.flags.length
    · rw [List.getElem?_append_left hi] at hflags
      exact h.pending i flags hflags
    · -- Nothing has been requested yet under flags that are new.
      rw [List.getElem?_append_right (Nat.le_of_not_lt hi)] at hflags
      rw [hmore flags (List.mem_of_getElem? hflags)]
      refine iff_of_false nofun ?_
      rintro ⟨other, hother, rfl⟩
      exact hi (h.target_lt other (h.requested other hother))

theorem addNew (h : s.Agrees history) :
    s.addNew.Agrees (history ++ [.made s.handles.length]) := by
  apply h.concat rfl (by simp) (by simp)
  · nofun
  · intro other hother htarget
    exact absurd htarget (Nat.ne_of_lt (h.target_lt other hother))

theorem addClone (h : s.Agrees history) {handle : Nat} (hhandle : handle < s.handles.length) :
    (s.addClone handle).Agrees (history ++ [.copied handle s.handles.length]) := by
  have hcopy : IsCopy (history ++ [.copied handle s.handles.length]) handle s.handles.length :=
    mem_concat.mpr (.inr rfl)
  have hagrees : Agrees ⟨s.flags ++ [], s.handles ++ [s.target handle]⟩
      (history ++ [.copied handle s.handles.length]) := by
    apply h.concat rfl (List.forall_mem_nil _)
    · rw [List.append_nil]
      exact h.target_lt handle hhandle
    · rintro _ _ ⟨⟩
      exact ⟨hhandle, rfl, rfl⟩
    · intro other hother htarget
      exact (h.linked other hother handle hhandle htarget).mono.trans _ _ _ (.rel _ _ hcopy)
  rwa [List.append_nil] at hagrees

end Agrees

/-! ### What is told behind a history -/

/-- Everything in a log that goes on from a history is as what stands before it tells. -/
def Telling (history log : List Event) : Prop :=
  ∀ front event back, log = front ++ event :: back → Tells (history ++ front) event

theorem Telling.single {event : Event} (h : Tells history event) : Telling history [event] := by
  intro front other back hsplit
  cases front with
  | nil =>
    obtain ⟨rfl, -⟩ := List.cons.inj hsplit
    rwa [List.append_nil]
  | cons => simp at hsplit

theorem Telling.append {log log' : List Event} (h : Telling history log)
    (h' : Telling (history ++ log) log') : Telling history (log ++ log') := by
  intro front event back hsplit
  rcases List.append_eq_append_iff.mp hsplit with ⟨more, rfl, hmore⟩ | ⟨more, rfl, hmore⟩
  · rw [← List.append_assoc]
    exact h' more event back hmore
  · cases more with
    | nil => simpa using h' [] event back hmore.symm
    | cons first more =>
      obtain ⟨rfl, -⟩ := List.cons.inj hmore
      exact h front event more rfl

/-! ### Runs of steps -/

/-- Steps that are taken behind a history lead to other interrupts and add a log to it. They keep the
handles, and no step is left running that was not running before. -/
structure Run (s : Interrupts) (history : List Event) (s' : Interrupts) (log : List Event) : Prop where
  agrees : s'.Agrees (history ++ log)
  tells : Telling history log
  handles : s.handles <+: s'.handles
  running : ∀ i, s'.IsRunning i → s.IsRunning i

namespace Run

variable {s' s'' : Interrupts} {log log' : List Event}

theorem nil (h : s.Agrees history) : Run s history s [] where
  agrees := (List.append_nil history).symm ▸ h
  tells := by simp [Telling]
  handles := List.prefix_refl _
  running := fun _ => id

theorem append (h : Run s history s' log) (h' : Run s' (history ++ log) s'' log') :
    Run s history s'' (log ++ log') where
  agrees := List.append_assoc history log log' ▸ h'.agrees
  tells := h.tells.append h'.tells
  handles := h.handles.trans h'.handles
  running := fun i hi => h.running i (h'.running i hi)

theorem unchanged (h : s.Agrees history) {event : Event} (hadds : event.addsHandle = false)
    (hrequests : ∀ other, event ≠ .requested other) (htells : Tells history event) :
    Run s history s [event] where
  agrees := h.unchanged hadds hrequests
  tells := .single htells
  handles := List.prefix_refl _
  running := fun _ => id

theorem request (h : s.Agrees history) {handle : Nat} (hhandle : handle < s.handles.length) :
    Run s history (s.request handle) [.requested handle] where
  agrees := h.request hhandle
  tells := .single trivial
  handles := List.prefix_refl _
  running := fun _ => .of_request

theorem concat {event : Event} {more : List Flags} {number : Nat}
    (hagrees : Agrees ⟨s.flags ++ more, s.handles ++ [number]⟩ (history ++ [event]))
    (htells : Tells history event) (hmore : ∀ flags ∈ more, flags = .clear) :
    Run s history ⟨s.flags ++ more, s.handles ++ [number]⟩ [event] where
  agrees := hagrees
  tells := .single htells
  handles := List.prefix_append ..
  running := fun _ => .of_append hmore

/-- A step that can be cut short and is not refused takes its own steps between where it is entered
and where it is left. -/
theorem blocking (h : s.Agrees history) {handle : Nat} (hhandle : handle < s.handles.length)
    (hpending : s.isPending handle = false)
    (hrun : Run (s.setBlocking handle true) (history ++ [.entered handle]) s' log) :
    Run s history (s'.setBlocking handle false)
      (.entered handle :: (log ++ [.left handle !(s'.setBlocking handle false).isPending handle])) := by
  have hentered : Tells history (.entered handle) := by
    rw [Tells, ← h.isPending_iff, hpending]
    exact Bool.false_ne_true
  have hleft : Tells (history ++ [.entered handle] ++ log)
      (.left handle !(s'.setBlocking handle false).isPending handle) := by
    rw [isPending_setBlocking]
    exact hrun.agrees.not_isPending_iff handle
  have htarget : s'.target handle = s.target handle :=
    (target_of_handles hrun.handles hhandle).trans (target_modify ..)
  constructor
  case agrees =>
    have hagrees : (s'.setBlocking handle false).Agrees (history ++ [.entered handle] ++ log ++
        [.left handle !(s'.setBlocking handle false).isPending handle]) := by
      refine hrun.agrees.setBlocking rfl ?_ handle false
      nofun
    rw [List.append_assoc, List.append_assoc] at hagrees
    exact hagrees
  case tells => exact (Telling.single hentered).append (hrun.tells.append (.single hleft))
  case handles => exact hrun.handles
  case running =>
    intro i hi
    obtain ⟨-, hfalse⟩ | ⟨hother, hduring⟩ := hi.of_setBlocking
    · cases hfalse
    · obtain ⟨hsame, -⟩ | ⟨-, hbefore⟩ := (hrun.running i hduring).of_setBlocking
      · exact absurd (htarget.trans hsame) hother
      · exact hbefore

end Run

mutual

/-- What happens when a step is taken. -/
theorem run_take {s : Interrupts} {history : List Event} (h : s.Agrees history) :
    (step : Step) → s.canTake step = true → Run s history (s.take step).2 (events step (s.take step).1)
  | .new, _ => .concat h.addNew h.count (by simp)
  | .clone handle, hcan => by
    have hagrees := h.addClone (of_decide_eq_true hcan)
    rw [addClone, ← List.append_nil s.flags] at hagrees
    have hrun := Run.concat hagrees h.count (List.forall_mem_nil _)
    rwa [List.append_nil] at hrun
  | .request handle, hcan => .request h (of_decide_eq_true hcan)
  | .isPending handle, _ => .unchanged h rfl nofun (h.isPending_iff handle)
  | .check handle, _ => .unchanged h rfl nofun (h.not_isPending_iff handle)
  | .blocking handle steps, hcan => by
    rw [canTake, Bool.and_eq_true, Bool.or_eq_true] at hcan
    obtain ⟨hhandle, hcan⟩ := hcan
    cases hpending : s.isPending handle with
    | true =>
      have htake : s.take (.blocking handle steps) = (.refused, s) := by
        simp [Interrupts.take, Interrupts.blocking, hpending]
      rw [htake]
      exact .unchanged h rfl nofun ((h.isPending_iff handle).mp hpending)
    | false =>
      have hentered : (s.setBlocking handle true).Agrees (history ++ [.entered handle]) := by
        refine h.setBlocking rfl ?_ handle true
        nofun
      have hrun := run_takeAll hentered steps (hcan.resolve_left (by simp [hpending]))
      have hstep := Run.blocking h (of_decide_eq_true hhandle) hpending hrun
      rw [Interrupts.take, Interrupts.blocking, hpending]
      exact hstep

/-- What happens when some steps are taken. -/
theorem run_takeAll {s : Interrupts} {history : List Event} (h : s.Agrees history) :
    (steps : List Step) → s.canTakeAll steps = true → Run s history (s.after steps) (s.log steps)
  | [], _ => .nil h
  | step :: rest, hcan => by
    rw [canTakeAll, Bool.and_eq_true] at hcan
    have hstep := run_take h step hcan.1
    rw [log_cons]
    exact hstep.append (run_takeAll hstep.agrees rest hcan.2)

end

/-- What holds behind some steps, whatever they are. -/
structure Follows (steps : List Step) : Prop where
  /-- Each step is answered with what happened before it tells, also while another step runs. -/
  told : ∀ front event back, single.log steps = front ++ event :: back → Tells front event
  /-- An interrupt is pending when it has been requested under a handle linked to its own. -/
  pending : ∀ handle, (single.after steps).isPending handle = true ↔
    IsRequested (single.log steps) handle
  /-- Once pending, an interrupt stays so. -/
  kept : ∀ front back handle, steps = front ++ back →
    (single.after front).isPending handle = true → (single.after steps).isPending handle = true
  /-- No step is left running. -/
  clear : ∀ handle, (single.after steps).isBlocking handle = false

/-- Steps that work on handles that there are follow the requests made before them. -/
theorem follows_requests {steps : List Step} (h : single.canTakeAll steps = true) :
    Follows steps := by
  have hrun : ∀ {steps : List Step}, single.canTakeAll steps = true →
      Run single [] (single.after steps) (single.log steps) := run_takeAll agrees_single _
  refine ⟨(hrun h).tells, (hrun h).agrees.isPending_iff, ?_, fun handle => ?_⟩
  · rintro front back handle rfl hpending
    rw [(hrun (canTakeAll_append h)).agrees.isPending_iff] at hpending
    rw [(hrun h).agrees.isPending_iff, log_append, ← List.append_assoc]
    exact hpending.mono
  · rw [← Bool.not_eq_true, isBlocking, Option.any_eq_true]
    intro hrunning
    obtain ⟨flags, hflags, hblocking⟩ := (hrun h).running _ hrunning
    obtain rfl : flags = .clear := by
      simpa [single] using List.mem_of_getElem? hflags
    cases hblocking

/-- A request under a copy cuts a step short, and is seen under a copy that is made later. The next
step is refused with the request that it would have made. -/
theorem follows_requests_copied :
    single.log [.new, .clone 0, .blocking 0 [.request 2, .blocking 1 [.clone 2]], .check 3,
        .blocking 0 [.request 1], .isPending 1] =
      [.made 1, .copied 0 2, .entered 0, .requested 2, .entered 1, .copied 2 3, .left 1 true,
        .left 0 false, .checked 3 false, .refused 0, .told 1 false] ∧
      Follows [.new, .clone 0, .blocking 0 [.request 2, .blocking 1 [.clone 2]], .check 3,
        .blocking 0 [.request 1], .isPending 1] :=
  ⟨by decide, follows_requests (by decide)⟩

end Interrupts
end EcmaPress

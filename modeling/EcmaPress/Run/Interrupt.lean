/-!
# Interrupts

Interrupts are held by handles. A handle may be copied, and all copies share one pair of flags:
whether the interrupt has been requested, and whether a step is running that can be cut short.
A request is never taken back.
-/

namespace EcmaPress

/-- The flags of an interrupt. -/
structure Flags where
  pending : Bool := false
  blocking : Bool := false
deriving DecidableEq, Repr, Inhabited

/-- The flags of an interrupt that nobody has requested. -/
def Flags.clear : Flags := {}

/-- Interrupts: pairs of flags, and for each handle the number of its pair. -/
structure Interrupts where
  flags : List Flags
  handles : List Nat
deriving DecidableEq, Repr

namespace Interrupts

/-- One interrupt with one handle. -/
def single : Interrupts := ⟨[.clear], [0]⟩

/-- The number of the flags of a handle. -/
def target (s : Interrupts) (handle : Nat) : Nat := s.handles[handle]?.getD s.flags.length

/-- One more interrupt. Its handle is the last one. -/
def addNew (s : Interrupts) : Interrupts :=
  ⟨s.flags ++ [.clear], s.handles ++ [s.flags.length]⟩

/-- One more handle that shares the flags of another. -/
def addClone (s : Interrupts) (handle : Nat) : Interrupts :=
  { s with handles := s.handles ++ [s.target handle] }

/-- Changes the flags of a handle. -/
def modify (s : Interrupts) (handle : Nat) (f : Flags → Flags) : Interrupts :=
  { s with flags := s.flags.modify (s.target handle) f }

/-- Requests the interrupt of a handle. -/
def request (s : Interrupts) (handle : Nat) : Interrupts :=
  s.modify handle ({ · with pending := true })

/-- Whether the interrupt of a handle has been requested. -/
def isPending (s : Interrupts) (handle : Nat) : Bool :=
  (s.flags[s.target handle]?).any Flags.pending

/-- Whether a step that can be cut short is running under a handle. -/
def isBlocking (s : Interrupts) (handle : Nat) : Bool :=
  (s.flags[s.target handle]?).any Flags.blocking

/-- Tells under a handle whether a step that can be cut short is running. -/
def setBlocking (s : Interrupts) (handle : Nat) (value : Bool) : Interrupts :=
  s.modify handle ({ · with blocking := value })

/-- Runs a step that can be cut short, unless the interrupt has been requested before. If it ran,
the answer is what it came to and whether there is no request behind it. -/
def blocking {α : Type} (s : Interrupts) (handle : Nat) (step : Interrupts → α × Interrupts) :
    Option (α × Bool) × Interrupts :=
  if s.isPending handle then (none, s)
  else
    let (value, during) := step (s.setBlocking handle true)
    let after := during.setBlocking handle false
    (some (value, !after.isPending handle), after)

/-- What can be done with interrupts. A step that can be cut short takes steps of its own. -/
inductive Step where
  | new
  | clone (handle : Nat)
  | request (handle : Nat)
  | isPending (handle : Nat)
  | check (handle : Nat)
  | blocking (handle : Nat) (steps : List Step)
deriving Repr

/-- What a step is answered with: a new handle, nothing, a flag, whether a check passed, or how a
step that can be cut short came out. That was refused, or has the answers to its own steps. -/
inductive Answer where
  | handle (handle : Nat)
  | nothing
  | flag (value : Bool)
  | checked (passed : Bool)
  | refused
  | ran (answers : List Answer) (passed : Bool)
deriving Repr

mutual

/-- Takes a step. -/
def take (s : Interrupts) : Step → Answer × Interrupts
  | .new => (.handle s.handles.length, s.addNew)
  | .clone handle => (.handle s.handles.length, s.addClone handle)
  | .request handle => (.nothing, s.request handle)
  | .isPending handle => (.flag (s.isPending handle), s)
  | .check handle => (.checked (!s.isPending handle), s)
  | .blocking handle steps =>
    match s.blocking handle fun s => s.takeAll steps with
    | (none, s) => (.refused, s)
    | (some (answers, passed), s) => (.ran answers passed, s)

/-- Takes some steps, and answers with what each one is answered with. -/
def takeAll (s : Interrupts) : List Step → List Answer × Interrupts
  | [] => ([], s)
  | step :: rest =>
    let (answer, s) := s.take step
    let (answers, s) := s.takeAll rest
    (answer :: answers, s)

end

end Interrupts
end EcmaPress

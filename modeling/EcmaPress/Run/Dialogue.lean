import EcmaPress.Run.Report

/-!
# Dialogues

A run as a dialogue with its surroundings: it calls for a stream to be read or written, asks
whether it has been interrupted, or says something, and goes on as the answer tells. A dialogue
is a value and does nothing by itself; `World.play` holds it with a modelled world, and the
program with the real one.
-/

namespace EcmaPress

/-- What a run may call for. -/
inductive Call where
  | readStandard
  | readFile (path : Path)
  | writeStandard (bytes : List UInt8)
  | flushStandard
  | writeFile (path : Path) (bytes : List UInt8)
deriving DecidableEq, Repr

/-- What a call is answered with if it succeeds. -/
def Call.Answer : Call → Type
  | .readStandard | .readFile _ => List UInt8
  | .writeStandard _ | .flushStandard | .writeFile _ _ => Unit

/-- A run that ends with a value. -/
inductive Dialogue (α : Type) where
  | done (value : α)
  | call (call : Call) (next : Except StreamError call.Answer → Dialogue α)
  | askInterrupted (next : Bool → Dialogue α)
  | report (report : Report) (next : Dialogue α)
  | complain (text : String) (next : Dialogue α)

namespace Dialogue

/-- One dialogue behind the other. -/
def bind {α β : Type} : Dialogue α → (α → Dialogue β) → Dialogue β
  | .done value, f => f value
  | .call c next, f => .call c fun answer => (next answer).bind f
  | .askInterrupted next, f => .askInterrupted fun answer => (next answer).bind f
  | .report r next, f => .report r (next.bind f)
  | .complain text next, f => .complain text (next.bind f)

instance : Monad Dialogue where
  pure := .done
  bind := bind

end Dialogue

/-- A dialogue that may fail. -/
abbrev Task := ExceptT Failure Dialogue

namespace Task

/-- Makes a call, whatever the answer is. -/
def call (c : Call) : Task (Except StreamError c.Answer) :=
  ExceptT.lift (.call c .done)

/-- Says something about the run. -/
def report (r : Report) : Task Unit :=
  ExceptT.lift (.report r (.done ()))

/-- Fails if the run has been interrupted. -/
def check : Task Unit := do
  if ← (ExceptT.lift (.askInterrupted .done) : Task Bool) then throw .interrupted

/-- The value of a step that may fail, with its errors as failures. -/
def ofExcept {ε α : Type} (failure : ε → Failure) : Except ε α → Task α
  | .ok value => pure value
  | .error error => throw (failure error)

end Task
end EcmaPress

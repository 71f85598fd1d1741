import EcmaPress.Run.Dialogue
import EcmaPress.Run.Filter

/-!
# Modelled worlds

A world that a dialogue can be held with: files and directories, standard streams that may fail,
calls that the system refuses, and interrupts that arrive before the run or during one of its
calls. Playing a dialogue leaves a world behind that remembers the calls.
-/

namespace EcmaPress

/-- What stands at a path. -/
inductive Node where
  | file (bytes : List UInt8)
  | directory
deriving DecidableEq, Repr

/-- The way from the root to a file. -/
abbrev Way := List (List UInt8)

/-- Files and directories by their ways. -/
abbrev Files := List (Way × Node)

namespace Files

/-- The way that a path leads, if it begins at the root. Above the root is the root. -/
def way (path : Path) : Way :=
  (path.components.foldl follow []).reverse
where
  /-- A way, the last name first, with one more step. -/
  follow (done : Way) : Path.Component → Way
    | .root => []
    | .here => done
    | .up => done.tail
    | .name bytes => bytes :: done

/-- What stands at the end of a way. The root is a directory. -/
def node? (files : Files) (w : Way) : Option Node :=
  if w.isEmpty then some .directory else files.lookup w

/-- Whether the system takes a name: it has at most 255 bytes. -/
def isName (name : List UInt8) : Bool :=
  name.length ≤ 255

/-- Why a way cannot be gone: a stop before its end that is missing or is a file, or a name that
is too long. The first thing that is wrong counts. -/
def obstacle? (files : Files) (w : Way) : Option StreamError :=
  (List.range w.length).findSome? fun n =>
    match files.node? (w.take n), (w.drop n).head?.all isName with
    | some .directory, true => none
    | some .directory, false => some (.system 36)
    | some (.file _), _ => some (.system 20)
    | none, _ => some (.system 2)

/-- Why a path leads nowhere. No path holds the byte 0, or 4096 bytes. -/
def fault? (files : Files) (path : Path) : Option StreamError :=
  if path.bytes.contains 0 then some (.other "file name contained an unexpected NUL byte")
  else if 4096 ≤ path.bytes.length then some (.system 36)
  else files.obstacle? (way path)

/-- The bytes of a file. -/
def read (files : Files) (path : Path) : Except StreamError (List UInt8) :=
  match files.fault? path, files.node? (way path) with
  | some error, _ => .error error
  | none, some (.file bytes) => .ok bytes
  | none, some .directory => .error (.system 21)
  | none, none => .error (.system 2)

/-- The files with one of them written, which may be new but has to stand in a directory. -/
def write (files : Files) (path : Path) (bytes : List UInt8) : Except StreamError Files :=
  let w := way path
  match files.fault? path, files.node? w with
  | some error, _ => .error error
  | none, some .directory => .error (.system 21)
  | none, _ => .ok ((w, .file bytes) :: files.filter (·.1 ≠ w))

end Files

/-- A call that the system refuses: the error, and how many of the bytes that were to be written
have been, if it came to writing at all. A file is empty before its first byte. Of a flush it is all
bytes that the standard output has taken, the last of which may not have come through. -/
structure Refusal where
  error : StreamError
  written : Option Nat := none
deriving DecidableEq, Repr

/-- A world for a run. `stdin` is what the standard input holds or why it cannot be read, and
`stdout` is what the standard output has taken. `refusal n call` tells whether the system refuses
the call number `n`, and `raises n call` whether an interrupt arrives during it. -/
structure World where
  files : Files := []
  stdin : Except StreamError (List UInt8) := .ok []
  stdout : List UInt8 := []
  stderr : String := ""
  refusal : Nat → Call → Option Refusal := fun _ _ => none
  raises : Nat → Call → Bool := fun _ _ => false
  interrupted : Bool := false
  filter : Filter := []
  calls : List Call := []

namespace World

/-- What the streams and files answer to a call, and the world after it. -/
def perform (world : World) : (c : Call) → Except StreamError c.Answer × World
  | .readStandard => (world.stdin, { world with stdin := world.stdin.map fun _ => [] })
  | .readFile path => (world.files.read path, world)
  | .writeStandard bytes => (.ok (), { world with stdout := world.stdout ++ bytes })
  | .flushStandard => (.ok (), world)
  | .writeFile path bytes =>
    let written := world.files.write path bytes
    (written.map fun _ => (), { world with files := written.toOption.getD world.files })

/-- The world after a call that is refused. A file that was not opened stays as it is. -/
def refuse (world : World) (refusal : Refusal) : Call → World
  | .writeStandard bytes =>
    { world with stdout := world.stdout ++ bytes.take (refusal.written.getD 0) }
  | .writeFile path bytes =>
    let written := refusal.written.bind fun n => (world.files.write path (bytes.take n)).toOption
    { world with files := written.getD world.files }
  | .flushStandard =>
    { world with stdout := world.stdout.take (refusal.written.getD world.stdout.length) }
  | .readStandard | .readFile _ => world

/-- The world in which a call has begun. An interrupt that arrives during the call stays. -/
def calling (world : World) (c : Call) : World :=
  { world with
    calls := world.calls ++ [c]
    interrupted := world.interrupted || world.raises world.calls.length c }

/-- The answer to a call, and the world after it. -/
def answer (world : World) (c : Call) : Except StreamError c.Answer × World :=
  match world.refusal world.calls.length c with
  | some refusal => (.error refusal.error, (world.calling c).refuse refusal c)
  | none => (world.calling c).perform c

/-- Adds a line to the standard error. -/
def printLine (world : World) (line : String) : World :=
  { world with stderr := world.stderr ++ line ++ "\n" }

/-- Holds a dialogue, and answers with its value and the world that it leaves behind. -/
def play {α : Type} : Dialogue α → World → α × World
  | .done value, world => (value, world)
  | .call c next, world =>
    let (answer, world) := world.answer c
    play (next answer) world
  | .askInterrupted next, world => play (next world.interrupted) world
  | .report r next, world =>
    play next (if world.filter.admits r then world.printLine r.text else world)
  | .complain text next, world => play next { world with stderr := world.stderr ++ text }

end World
end EcmaPress

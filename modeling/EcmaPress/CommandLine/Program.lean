import EcmaPress.Path

/-!
# The name of the program

What the program calls itself in its messages: its base name if it is found on the search path,
the launcher that runs it out of a build directory, or else what it was called as.
-/

namespace EcmaPress

/-- What the program is called if nobody says. -/
def defaultProgram : String := "crimp"

/-- The entries of a search path, which have colons between them. -/
def searchPath (text : String) : List Path :=
  (stretches ':' text.toList).map fun entry => .ofString (String.ofList entry)

/-- Whether a directory is a profile of a build directory. -/
def isBuildDirectory (directory : Path) : Bool :=
  (directory.parent?.bind Path.fileName?) = some "target"

/-- The name of the program in its messages, from what it was called as. -/
def programName (lookup : String → Option String) (called : String) : String :=
  let path := Path.ofString called
  let directory := path.parent?.getD ⟨[]⟩
  let onSearchPath := (lookup "PATH").any fun text => (searchPath text).any directory.same
  match path.fileName?, onSearchPath with
  | some name, true => name
  | _, _ =>
    if (lookup "CARGO").isSome && isBuildDirectory directory then "cargo run --" else called

end EcmaPress

import EcmaPress.Charset.Utf8
import EcmaPress.Text.Split

/-!
# Paths

Paths as they are written, without a look at the files. A path is its bytes, which need not be
UTF-8; its components are what the bytes name one after the other, with empty stretches and inner
dots left out. All operations here are about bytes and components, so they hold for files that do
not exist.
-/

namespace EcmaPress

/-- A path as it is written. -/
structure Path where
  bytes : List UInt8
deriving DecidableEq, Repr, Inhabited

namespace Path

/-- The byte between the components of a path. -/
def slash : UInt8 := 0x2F

/-- The byte that one of says here, and two of say up. -/
def dot : UInt8 := 0x2E

/-- The path with a text. -/
def ofString (text : String) : Path := ⟨Utf8.ofString text⟩

instance : Coe String Path := ⟨ofString⟩

/-- A path as a text, with a replacement character for what is not UTF-8 in it. -/
def text (path : Path) : String := Utf8.lossy path.bytes

/-- A path as a text, if it is UTF-8. -/
def text? (path : Path) : Option String := Utf8.text? path.bytes

/-- A step of a path: to the root, to where one is, up, or to a name. -/
inductive Component where
  | root
  | here
  | up
  | name (bytes : List UInt8)
deriving DecidableEq, Repr

/-- How a component is written. -/
def Component.bytes : Component → List UInt8
  | .root => [slash]
  | .here => [dot]
  | .up => [dot, dot]
  | .name bytes => bytes

/-- Whether a stretch names nothing. -/
def isGap (stretch : List UInt8) : Bool :=
  stretch = [] || stretch = [dot]

/-- A path taken apart: a root or a dot that it begins with, and the stretches behind that. -/
structure Parts where
  head : Option Component
  body : List (List UInt8)
deriving DecidableEq, Repr

namespace Parts

/-- The parts of some bytes. -/
def ofBytes (bytes : List UInt8) : Parts :=
  if bytes.head? = some slash then ⟨some .root, stretches slash bytes.tail⟩
  else if bytes = [dot] then ⟨some .here, []⟩
  else if [dot, slash] <+: bytes then ⟨some .here, stretches slash bytes.tail⟩
  else ⟨none, stretches slash bytes⟩

/-- The path of some parts. -/
def toPath (parts : Parts) : Path :=
  ⟨(parts.head.map Component.bytes).getD [] ++ [slash].intercalate parts.body⟩

/-- The parts without the gaps at their end. -/
def trimEnd (parts : Parts) : Parts :=
  { parts with body := (parts.body.reverse.dropWhile isGap).reverse }

/-- The stretches that name something, as components. -/
def names (parts : Parts) : List Component :=
  (parts.body.filter (!isGap ·)).map fun stretch =>
    if stretch = [dot, dot] then .up else .name stretch

end Parts

/-- The parts of a path. -/
def parts (path : Path) : Parts := .ofBytes path.bytes

/-- The components of a path. -/
def components (path : Path) : List Component :=
  path.parts.head.toList ++ path.parts.names

/-- Whether a path begins at the root. -/
def isAbsolute (path : Path) : Bool :=
  path.parts.head = some .root

/-- What stands between a path and what is joined to it. -/
def seam (path : Path) : List UInt8 :=
  if path.bytes.getLast?.all (· = slash) then [] else [slash]

/-- The path that `path` means when one is at `base`. -/
def join (base path : Path) : Path :=
  if path.isAbsolute then path else ⟨base.bytes ++ seam base ++ path.bytes⟩

/-- The path of some components. A root discards what stands before it. -/
def ofComponents (components : List Component) : Path :=
  components.foldl (fun path c => path.join ⟨c.bytes⟩) ⟨[]⟩

/-- Adds a component to those above, the last one first. A step up removes what is above,
unless that is nothing or the root. -/
def fold (above : List Component) (component : Component) : List Component :=
  match component, above with
  | .here, _ => above
  | .up, [] => [.up]
  | .up, .root :: _ => .up :: above
  | .up, _ :: more => more
  | c, _ => c :: above

/-- A path seen from `base`, with dots and steps up folded away. -/
def absolutize (base path : Path) : Path :=
  ofComponents ((base.join path).components.foldl fold []).reverse

/-- How many components two lists begin with in common. -/
def sharedLength : List Component → List Component → Nat
  | a :: as, b :: bs => if a = b then sharedLength as bs + 1 else 0
  | _, _ => 0

/-- The way from a directory to a file. -/
def relative (directory file : Path) : Path :=
  let shared := sharedLength directory.components file.components
  ofComponents
    (List.replicate (directory.components.length - shared) .up ++ file.components.drop shared)

/-- The components as they are shown, with slashes between them. -/
def toUrl (path : Path) : String :=
  "/".intercalate (path.components.map fun c => Utf8.lossy c.bytes)

/-- The stretches behind the first `n` that name something. -/
def behind : Nat → List (List UInt8) → List (List UInt8)
  | 0, body => body
  | _ + 1, [] => []
  | n + 1, stretch :: body => behind (if isGap stretch then n + 1 else n) body

/-- What is left of a path below `base`, as it is written; `none` outside of `base`. -/
def below? (base path : Path) : Option Path :=
  if base.components.isPrefixOf path.components then
    if base.components.isEmpty then some path.parts.trimEnd.toPath
    else
      let body := behind base.parts.names.length path.parts.body
      some (Parts.toPath (Parts.trimEnd ⟨none, body.dropWhile isGap⟩))
  else none

/-- A path as it is shown: as what it is below `base`, where that is not empty. -/
def shown (base path : Path) : Path :=
  match below? base path with
  | some rest => if rest.bytes = [] then path else rest
  | none => path

/-- A path without its last component; `none` if that is the root or missing. -/
def parent? (path : Path) : Option Path :=
  match path.parts.body.reverse.dropWhile isGap with
  | _ :: body => some (Parts.toPath (Parts.trimEnd ⟨path.parts.head, body.reverse⟩))
  | [] => if path.parts.head = some .here then some ⟨[]⟩ else none

/-- The directory of a path, or the path itself where it has none. -/
def directory (path : Path) : Path := path.parent?.getD path

/-- The name that a path ends with, as it is shown. -/
def fileName? (path : Path) : Option String :=
  match path.components.getLast? with
  | some (.name bytes) => some (Utf8.lossy bytes)
  | _ => none

/-- Whether two paths have the same components. -/
def same (a b : Path) : Bool :=
  a.components = b.components

end Path
end EcmaPress

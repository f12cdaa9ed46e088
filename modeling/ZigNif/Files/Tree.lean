import ZigNif.Failure
import ZigNif.Path

/-!
# Files/Tree — a tree of files as a value

A tree is a file, or a directory with named trees in it.  A path is followed name by name: every
name on the way has to be that of a directory, only what the last name stands for may be missing.
-/

namespace ZigNif

/-- A file with its bytes, or a directory with what is in it, each under its name. -/
inductive FileTree
  | file (bytes : List UInt8)
  | directory (inside : List (Text × FileTree))
  deriving Repr

/-- The names on the way from the root to a file or directory; none of them is `..`. -/
abbrev Location := List Text

namespace FileTree

/-! ## Locations -/

/-- What stands at a location. -/
def get? : FileTree → Location → Option FileTree
  | t, [] => some t
  | directory inside, name :: names => (Table.get? inside name).bind (·.get? names)
  | file _, _ :: _ => none

/-- The tree with another one at a location; directories that are missing on the way are made. -/
def put : FileTree → Location → FileTree → FileTree
  | _, [], new => new
  | directory inside, name :: names, new =>
    directory (Table.put name (((Table.get? inside name).getD (directory [])).put names new) inside)
  | file bytes, _ :: _, _ => file bytes

/-- Whether the tree is a directory. -/
def isFolder : FileTree → Bool
  | directory _ => true
  | file _ => false

/-- The bytes of a file. -/
def bytes? : FileTree → Option (List UInt8)
  | file bytes => some bytes
  | directory _ => none

mutual

/-- What a directory holds, directly or deeper, with the locations seen from it; a directory comes
before what is in it. -/
def contents : FileTree → List (Location × FileTree)
  | file _ => []
  | directory inside => contentsOf inside

/-- What named trees are and hold. -/
def contentsOf : List (Text × FileTree) → List (Location × FileTree)
  | [] => []
  | (name, t) :: rest =>
    ([name], t) :: t.contents.map (fun (place, e) => (name :: place, e)) ++ contentsOf rest

end

/-! ## Following paths -/

/-- The longest name that a file may have, in bytes. -/
def maxNameBytes : Nat := 255

/-- The shortest path that is too long, in bytes. -/
def tooManyBytes : Nat := 4096

/-- The number of bytes of a text. -/
def byteLength (t : Text) : Nat := (Utf8.encode t).length

/-- A way down from the root of a tree: the names gone through, the last one first, each with what
stands there. -/
abbrev Way := List (Text × Option FileTree)

namespace Way

/-- What stands at the end of a way. -/
def target (way : Way) (t : FileTree) : Option FileTree :=
  match way with
  | [] => some t
  | (_, e) :: _ => e

/-- The location at the end of a way. -/
def place (way : Way) : Location := (way.map Prod.fst).reverse

/-- The way with one more name; `..` takes the last one back. -/
def enter (t : FileTree) (way : Way) (name : Text) : Except FileFault Way :=
  match way.target t with
  | some (directory inside) =>
    if name = ['.', '.'] then .ok way.tail
    else if byteLength name > maxNameBytes then .error .nameTooLong
    else .ok ((name, Table.get? inside name) :: way)
  | some (file _) => .error .notDirectory
  | none => .error .missing

end Way

/-- The way that a path leads from the directory `here`. -/
def follow (t : FileTree) (here : Location) (p : Path) : Except FileFault Way :=
  if byteLength p.text ≥ tooManyBytes then .error .nameTooLong
  else ((if p.root = .relative then here else []) ++ p.names).foldlM (Way.enter t) []

/-- The location that a path leads to; nothing has to stand there. -/
def locate (t : FileTree) (here : Location) (p : Path) : Except FileFault Location :=
  Way.place <$> t.follow here p

/-! ## Use -/

/-- The bytes of the file that a path leads to. -/
def read (t : FileTree) (here : Location) (p : Path) : Except FileFault (List UInt8) := do
  match (← t.follow here p).target t with
  | some (file bytes) => pure bytes
  | some (directory _) => throw .isDirectory
  | none => throw .missing

/-- What is in the directory that a path leads to, under its names. -/
def list (t : FileTree) (here : Location) (p : Path) : Except FileFault (Table FileTree) := do
  match (← t.follow here p).target t with
  | some (directory inside) => pure inside
  | some (file _) => throw .notDirectory
  | none => throw .missing

/-- The tree with the bytes in the file that a path leads to; its directory has to be there. -/
def write (t : FileTree) (here : Location) (p : Path) (bytes : List UInt8) :
    Except FileFault FileTree := do
  let way ← t.follow here p
  match way.target t with
  | some (directory _) => throw .isDirectory
  | _ => pure (t.put way.place (file bytes))

/-- The tree with a new directory where a path leads to. -/
def makeDirectory (t : FileTree) (here : Location) (p : Path) : Except FileFault FileTree := do
  let way ← t.follow here p
  match way.target t with
  | none => pure (t.put way.place (directory []))
  | some _ => throw .alreadyExists

/-- Whether a path leads to a directory. -/
def isDirectory (t : FileTree) (here : Location) (p : Path) : Except FileFault Bool :=
  match t.list here p with
  | .ok _ => .ok true
  | .error .nameTooLong => .error .nameTooLong
  | .error _ => .ok false

end FileTree

end ZigNif

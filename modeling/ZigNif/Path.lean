import ZigNif.Text.Basic

/-!
# Path — POSIX path names

A path name is a root and the names along the way.  Empty names and `.` are dropped when a path is
read, `..` is kept; `Path.normal` removes `..` lexically.  Exactly two leading slashes are a root
of their own.
-/

namespace ZigNif

/-- Where a path starts: at the working directory, at `/`, or at `//`. -/
inductive Root
  | relative
  | slash
  | doubleSlash
  deriving DecidableEq, Repr

namespace Root

def text : Root → Text
  | relative => []
  | slash => "/"
  | doubleSlash => "//"

/-- The root of a path that starts with so many slashes. -/
def ofSlashes : Nat → Root
  | 0 => relative
  | 2 => doubleSlash
  | _ => slash

end Root

/-- A path name; none of its names is empty or `.`, or holds a slash. -/
structure Path where
  root : Root := .relative
  names : List Text := []
  deriving DecidableEq, Repr

namespace Path

/-- The path that a text denotes. -/
def ofText (t : Text) : Path :=
  { root := .ofSlashes (t.takeWhile (· = '/')).length
    names := (Text.splitOn '/' t).filter fun n => n ≠ [] ∧ n ≠ ['.'] }

/-- The text of a path; the empty relative path is `.`. -/
def text (p : Path) : Text :=
  match p.root, p.names with
  | .relative, [] => "."
  | root, names => root.text ++ Text.joined "/" names

/-- `q` as seen from the directory `p`. -/
def join (p q : Path) : Path :=
  if q.root = .relative then { p with names := p.names ++ q.names } else q

/-- The path without its last name. -/
def parent (p : Path) : Path := { p with names := p.names.dropLast }

/-- The last name, empty if there is none. -/
def name (p : Path) : Text := p.names.getLast?.getD []

/-- The last name up to and from its last dot.  A dot at either end of the name does not count. -/
def stemAndSuffix (p : Path) : Text × Text :=
  let n := p.name
  let suffix := (n.reverse.takeWhile (· ≠ '.')).reverse
  if suffix.length + 1 < n.length ∧ suffix ≠ [] then
    (n.take (n.length - suffix.length - 1), '.' :: suffix)
  else (n, [])

/-- The last name without its suffix. -/
def stem (p : Path) : Text := p.stemAndSuffix.1

/-- The suffix of the last name, dot included. -/
def suffix (p : Path) : Text := p.stemAndSuffix.2

/-- The directory of a file path that is given as text: a path that ends in a slash is a directory
already. -/
def directoryOf (t : Text) : Path :=
  { root := .ofSlashes (t.takeWhile (· = '/')).length
    names := (Text.splitOn '/' t).dropLast.filter fun n => n ≠ [] ∧ n ≠ ['.'] }

/-! ## Normal form -/

/-- One more name at the end: `..` takes the last name back, if there is one to take back; it
cannot leave the root. -/
def push (isRooted : Bool) (names : List Text) (n : Text) : List Text :=
  if n ≠ ['.', '.'] then names ++ [n]
  else match names.getLast? with
    | none => if isRooted then [] else [n]
    | some last => if last = ['.', '.'] then names ++ [n] else names.dropLast

/-- The path without `..`, but for those at the start of a relative path. -/
def normal (p : Path) : Path :=
  { p with names := p.names.foldl (push (p.root ≠ .relative)) [] }

/-- The path seen from `base`, if it lies at or under it; both are absolute and normal. -/
def under? (base p : Path) : Option Path :=
  if base.names.isPrefixOf p.names then some { names := p.names.drop base.names.length } else none

end Path

end ZigNif

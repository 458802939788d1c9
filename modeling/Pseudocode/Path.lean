/-!
Paths.

The text of a path is its parts with slashes between them.  A path starts in the directory at hand,
or at the root if a slash comes first.  A part is a name to go down by, or one of two dots and one
dot: `..` goes up, and `.` stays.  Empty parts mean nothing, but a slash at the end says that the
last part is to be a directory.

A `Place` is where a path leads.  What is above the directory at hand has no names here, so a place
is given by how far up it is and by the names that lead down from there.
-/

namespace Pseudocode

/-- A directory that places are counted from. -/
inductive Base where
  /-- The directory so many levels above the one at hand. -/
  | above (levels : Nat)
  /-- The directory that is above all others. -/
  | root
  deriving DecidableEq, Repr, Inhabited

/-- Where a file or a directory can be. -/
structure Place where
  base : Base := .above 0
  names : List String := []
  deriving DecidableEq, Repr, Inhabited

namespace Place

/-- The place one level up.  Above the root there is the root. -/
def parent (p : Place) : Place :=
  match p.names, p.base with
  | [], .above levels => { base := .above (levels + 1) }
  | [], .root => p
  | _, base => { base, names := p.names.dropLast }

/-- The place that one part of a path leads to. -/
def follow (p : Place) (part : String) : Place :=
  if part = "." then p
  else if part = ".." then p.parent
  else { p with names := p.names ++ [part] }

/-- Is one place below another? -/
def isBelow (p q : Place) : Bool :=
  p.base == q.base && q.names.length < p.names.length && q.names.isPrefixOf p.names

end Place

namespace Path

/-- The place that a path starts from. -/
def start (path : String) : Place :=
  if path.startsWith "/" then { base := .root } else {}

/-- The parts of a path.  A path of slashes alone stays where it starts. -/
def parts (path : String) : List String :=
  match (path.splitOn "/").filter (· != "") with
  | [] => ["."]
  | parts => parts

/-- The place that a path leads to, if there is a directory wherever it goes through. -/
def place (path : String) : Place :=
  (parts path).foldl Place.follow (start path)

end Path

end Pseudocode

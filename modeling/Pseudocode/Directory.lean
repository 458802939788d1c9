import Pseudocode.Compiler
import Pseudocode.Path

/-!
Files, and a directory of them.

`Files` is what the command line needs of a file system: reading a file and writing one.  A
`Directory` is a file system in memory, given by its files.  Besides the directories that some file
is in there are the one at hand and all those above it.

A path is followed part by part, and every part but the last must lead to a directory.  A name can
have 255 bytes, and a path 4095.
-/

namespace Pseudocode

/-- Reading and writing files. -/
structure Files (m : Type → Type) where
  read : String → m (Except FileFault ByteArray)
  write : String → String → m (Except FileFault Unit)

/-- The text of a file, which must be UTF-8. -/
def Files.readText [Monad m] (files : Files m) (path : String) : m (Except FileFault String) := do
  match ← files.read path with
  | .error fault => return .error fault
  | .ok bytes =>
    match String.fromUTF8? bytes with
    | some text => return .ok text
    | none => return .error .notUtf8

/-- What can be at a place. -/
inductive Entry where
  | file (bytes : ByteArray)
  | directory

/-- A directory, given by the files in it, below it and above it. -/
structure Directory where
  files : List (Place × ByteArray) := []

namespace Directory

/-- What is at a place. -/
def entry? (d : Directory) (p : Place) : Option Entry :=
  if p.names.isEmpty || d.files.any (fun file => file.1.isBelow p) then some .directory
  else (d.files.lookup p).map .file

/-- Follows one part of a path, and looks at what is there. -/
def look (d : Directory) (p : Place) (part : String) : Except FileFault (Place × Option Entry) :=
  if 255 < part.utf8ByteSize then .error .nameTooLong
  else .ok (p.follow part, d.entry? (p.follow part))

/-- Follows parts of a path that must all be directories. -/
def walk (d : Directory) (p : Place) : List String → Except FileFault Place
  | [] => .ok p
  | part :: parts => do
    match ← d.look p part with
    | (q, some .directory) => d.walk q parts
    | (_, some (.file _)) => throw .notDirectory
    | (_, none) => throw .missing

/-- The directory that a path ends in, and its last part. -/
def locate (d : Directory) (path : String) : Except FileFault (Place × String) := do
  if path.contains '\x00' then throw .nulInName
  if 4095 < path.utf8ByteSize then throw .nameTooLong
  if path.isEmpty then throw .missing
  let parts := Path.parts path
  return (← d.walk (Path.start path) parts.dropLast, parts.getLastD ".")

/-- The bytes of a file. -/
def read (d : Directory) (path : String) : Except FileFault ByteArray := do
  let (p, part) ← d.locate path
  match ← d.look p part with
  | (_, some .directory) => throw .isDirectory
  | (_, some (.file bytes)) => if path.endsWith "/" then throw .notDirectory else return bytes
  | (_, none) => throw .missing

/-- The directory with a text in a file.  The file is created if it is not there, but no directory
is. -/
def write (d : Directory) (path text : String) : Except FileFault Directory := do
  let (p, part) ← d.locate path
  -- A slash at the end asks for a directory before anything is looked at.
  if path.endsWith "/" then throw .isDirectory
  match ← d.look p part with
  | (_, some .directory) => throw .isDirectory
  | (q, _) => return { files := (q, text.toUTF8) :: d.files.filter fun file => file.1 != q }

/-- The directory as a file system. -/
def fileSystem : Files (StateM Directory) where
  read path := return (← get).read path
  write path text := do
    match (← get).write path text with
    | .ok d =>
      set d
      return .ok ()
    | .error fault => return .error fault

end Directory

end Pseudocode

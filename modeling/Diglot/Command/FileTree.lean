import Diglot.Command.Disk
import Diglot.Path

/-!
# Trees of files

Files and directories kept in memory, around one directory that paths start from. Paths are followed
segment by segment: each segment but the last has to lead to a directory, a single dot stays in
place, and two dots lead back. The directories above the starting directory exist, and so does the
root; nothing else is there that the tree does not list.

- `Place`: where a path can lead.
- `FileTree`: directories and files by their places.
- `FileTree.resolve`: where a path leads.
- `FileTree.read`, `FileTree.createDir`, `FileTree.write`: the operations of a disk.
- `FileTree.disk`: the disk that a tree is.
-/

namespace Diglot.Command

/-- A directory that the names of a `Place` can start from. -/
inductive Base where
  /-- So many directories above the starting directory. -/
  | above (levels : Nat)
  | root
  deriving DecidableEq, Repr

namespace Base

/-- The starting directory: no level `above` it. -/
def start : Base :=
  .above 0

/-- The directory above. The `root` is above itself. -/
def parent : Base → Base
  | .above levels => .above (levels + 1)
  | .root => .root

end Base

/-- Where a path can lead: to what the `names` lead to, one after the other, from a directory
on. -/
structure Place where
  base : Base
  names : List Bytes
  deriving DecidableEq, Repr

namespace Place

/-- The place that a name leads to, below a place. -/
def child (place : Place) (name : Bytes) : Place :=
  { place with names := place.names ++ [name] }

/-- The place that two dots lead to: without the last name, or else above the `base`. -/
def parent (place : Place) : Place :=
  if place.names.isEmpty then { place with base := place.base.parent }
  else { place with names := place.names.dropLast }

end Place

/-- Files and directories, each by its `Place`. -/
structure FileTree where
  dirs : List Place
  files : List (Place × String)

namespace FileTree

/-- The tree with nothing in it. -/
def empty : FileTree :=
  { dirs := [], files := [] }

/-- Whether there is a directory at a place. A `Base` is one. -/
def isDir (t : FileTree) (place : Place) : Bool :=
  place.names.isEmpty || t.dirs.contains place

/-- The text of the file at a place, if there is a file. -/
def file? (t : FileTree) (place : Place) : Option String :=
  (t.files.find? fun (p, _) => p == place).map Prod.snd

/-- Puts a file at a place, in the stead of the one that `file?` finds there. -/
def put (t : FileTree) (place : Place) (text : String) : FileTree :=
  { t with files := (t.files.filter fun (p, _) => p != place) ++ [(place, text)] }

/-- Makes a directory at a place, unless there is one (`isDir`). -/
def addDir (t : FileTree) (place : Place) : FileTree :=
  if t.isDir place then t else { t with dirs := t.dirs ++ [place] }

/-- The most bytes that a name may have, for `follow`. -/
def nameLimit : Nat := 255

/-- The most bytes that a path may have, for `resolve`. -/
def pathLimit : Nat := 4095

/-- Follows one segment from a place, which has to be a directory (`isDir`). -/
def follow (t : FileTree) (place : Place) (segment : Bytes) : Except DiskError Place :=
  if !t.isDir place then
    .error (if (t.file? place).isSome then .notDirectory else .notFound)
  else if Path.isFiller segment then .ok place
  else if segment = [Path.dot, Path.dot] then .ok place.parent
  else if nameLimit < segment.length then .error .nameTooLong
  else .ok (place.child segment)

/-- The place that a path starts from: the root if it `isAbsolute`. -/
def origin (path : Path) : Place :=
  { base := if path.isAbsolute then .root else .start, names := [] }

/-- The place that a path leads to, one step of `follow` for each segment. There need not be
anything at the place itself. -/
def resolve (t : FileTree) (path : Path) : Except DiskError Place :=
  if path.bytes.isEmpty then .error .notFound
  else if pathLimit < path.bytes.length then .error .nameTooLong
  else (Path.segments path.bytes).foldlM t.follow (origin path)

/-- The text of the file that a path leads to (`resolve`). -/
def read (t : FileTree) (path : Path) : Except DiskError String := do
  let place ← t.resolve path
  if t.isDir place then .error .isDirectory
  else
    match t.file? place with
    | some text => .ok text
    | none => .error .notFound

/-- Replaces the text of the file that a path leads to (`resolve`), or makes the file. -/
def write (t : FileTree) (path : Path) (text : String) : Except DiskError FileTree := do
  let place ← t.resolve path
  if t.isDir place then .error .isDirectory else .ok (t.put place text)

/-- A path without the slashes at its end. -/
def withoutSlashes (path : Path) : Path :=
  { bytes := (path.bytes.reverse.dropWhile (· = Path.slash)).reverse }

/-- The place where a path asks for a directory. Slashes at the end of the path may follow the
name of what is not there yet (`withoutSlashes`). -/
def resolveNew (t : FileTree) (path : Path) : Except DiskError Place :=
  t.resolve (if (withoutSlashes path).bytes.isEmpty then path else withoutSlashes path)

/-- Makes the one directory that a path leads to (`resolveNew`). Nothing may be there yet. -/
def makeDir (t : FileTree) (path : Path) : Except DiskError FileTree := do
  let place ← t.resolveNew path
  if t.isDir place || (t.file? place).isSome then .error .alreadyExists
  else .ok (t.addDir place)

/-- Whether a path leads to a directory (`isDir`). -/
def leadsToDir (t : FileTree) (path : Path) : Bool :=
  match t.resolve path with
  | .ok place => t.isDir place
  | .error _ => false

/-- Makes the directories that the beginnings of a path lead to, from the shortest that is
missing. The longest comes first in the list, as `ancestry` has it. -/
def createDirs (t : FileTree) : List Path → Except DiskError FileTree
  | [] => .ok t
  | path :: shorter =>
    match t.makeDir path with
    | .ok t => .ok t
    -- something above is missing, so the shorter beginnings come first
    | .error .notFound => do
      let t ← t.createDirs shorter
      match t.makeDir path with
      | .ok t => .ok t
      | .error e => if t.leadsToDir path then .ok t else .error e
    | .error e => if t.leadsToDir path then .ok t else .error e

/-- The path itself and the paths to the directories above it, the longest first. -/
def ancestry (path : Path) : List Path :=
  let kept := ((Path.segments path.bytes).reverse.dropWhile Path.isFiller).reverse
  let beginnings := (List.range kept.length).map fun n =>
    { bytes := [Path.slash].intercalate (kept.take (n + 1)) }
  match beginnings.reverse with
  | [] => [path]
  | _ :: shorter => path :: shorter

/-- Makes the directory that a path leads to, with those that lead to it (`ancestry`). -/
def createDir (t : FileTree) (path : Path) : Except DiskError FileTree :=
  t.createDirs (ancestry path)

/-- The tree with the given files, each `put` at the end of its own directories. -/
def ofFiles (files : List (Path × String)) : FileTree :=
  files.foldl (fun t (path, text) =>
    let names := (Path.segments path.bytes).filter fun s => !Path.isFiller s
    let dirs := (List.range names.length).map fun n => { base := .start, names := names.take n }
    (dirs.foldl addDir t).put { base := .start, names } text) empty

/-- The files below the starting directory that are new since the tree `before`, or have another
text. -/
def changedSince (t before : FileTree) : List (Path × String) :=
  (t.files.filter fun (place, text) =>
    place.base == .start && before.file? place != some text).map
    fun (place, text) => ({ bytes := [Path.slash].intercalate place.names }, text)

/-- The result of an operation that may change the tree; one that is refused leaves `t`. -/
def update (t : FileTree) : Except DiskError FileTree → Except DiskError Unit × FileTree
  | .ok t => (.ok (), t)
  | .error e => (.error e, t)

/-- The `Disk` whose files are those of a tree. -/
def disk : Disk (StateM FileTree) where
  read path := return (← get).read path
  createDir path := modifyGet fun t => t.update (t.createDir path)
  write path text := modifyGet fun t => t.update (t.write path text)

end FileTree

end Diglot.Command

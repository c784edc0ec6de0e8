import Diglot.Path

/-!
# Disks

Where the command reads its files from and writes them to. The command is written against this
interface, so it runs on the file system of a machine as well as on a tree of files kept in memory.

- `DiskError`: why an operation was refused, with its message.
- `Disk`: the operations.
-/

namespace Diglot.Command

/-- Why a `Disk` refuses an operation. -/
inductive DiskError where
  /-- There is nothing at the path. -/
  | notFound
  /-- There is something at the path already. -/
  | alreadyExists
  /-- The path leads through a file. -/
  | notDirectory
  /-- There is a directory at the path. -/
  | isDirectory
  /-- The path, or a name in it, is longer than the disk allows. -/
  | nameTooLong
  /-- Any other reason, in the words of the system. -/
  | other (message : String)
  deriving DecidableEq, Repr

/-- The reason in words, with the number that the system gives it. -/
def DiskError.message : DiskError → String
  | notFound => "No such file or directory (os error 2)"
  | alreadyExists => "File exists (os error 17)"
  | notDirectory => "Not a directory (os error 20)"
  | isDirectory => "Is a directory (os error 21)"
  | nameTooLong => "File name too long (os error 36)"
  | other message => message

/-- The operations that the command needs, as computations in `m`. -/
structure Disk (m : Type → Type) where
  /-- The text of a file. -/
  read : Path → m (Except DiskError String)
  /-- Makes a directory, with those that lead to it. -/
  createDir : Path → m (Except DiskError Unit)
  /-- Replaces the text of a file, or makes the file. -/
  write : Path → String → m (Except DiskError Unit)

end Diglot.Command

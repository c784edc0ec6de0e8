import Diglot.Command.Run

/-!
# The program

Runs the command on the file system of the machine.
-/

namespace Diglot.Command

/-- The reason for which the file system refuses an operation. Kinds that no `DiskError` stands
for keep their words. -/
def DiskError.ofSystem : IO.Error → DiskError
  | .noFileOrDirectory .. => .notFound
  | .alreadyExists .. => .alreadyExists
  | .inappropriateType _ code _ => if code = 21 then .isDirectory else .notDirectory
  | .invalidArgument _ code text => if code = 36 then .nameTooLong else .other text
  | e => .other (toString e)

/-- An operation of the file system, with its failure as a value (`DiskError.ofSystem`). -/
def attempt {α : Type} (action : IO α) : IO (Except DiskError α) := do
  try
    return .ok (← action)
  catch e =>
    return .error (.ofSystem e)

/-- An operation on the file that a path leads to. The file system is asked by texts only
(`Path.text?`). -/
def attemptAt {α : Type} (path : Path) (action : String → IO α) : IO (Except DiskError α) :=
  match path.text? with
  | some text => attempt (action text)
  | none => return .error .notFound

/-- The file system of the machine, as the `Disk` that the command runs on. -/
def machine : Disk IO where
  read path := attemptAt path fun file => IO.FS.readFile file
  createDir path := attemptAt path fun dir => IO.FS.createDirAll dir
  write path text := attemptAt path fun file => IO.FS.writeFile file text

end Diglot.Command

open Diglot.Command in
/-- Runs the command with the arguments of the program on the `machine`. -/
def main (args : List String) : IO UInt32 := do
  let report ← run machine args
  IO.print report.output
  IO.eprint report.errors
  return report.status.toUInt32

import Diglot.Command.Disk
import Diglot.Command.Options
import Diglot.Compile
import Diglot.Path
import Diglot.Text.Terminal
import Diglot.Tree.Outline

/-!
# The command

Reads files, compiles each of them, or prints its tree or its tokens. A file that fails is reported
and does not keep the other ones from being worked on.

- `Failure`: why a file could not be worked on, with its message.
- `Report`: what the command prints, and how it ends.
- `run`: the command itself, on any disk.
-/

namespace Diglot.Command

/-- Why a file could not be worked on. Each case but the `extension` hands on an error from
elsewhere. -/
inductive Failure where
  | read (path : Path) (e : DiskError)
  | extension (path : Path)
  | parse (path : Path) (e : Error)
  | compile (path : Path) (e : Error)
  | createDir (path : Path) (e : DiskError)
  | write (path : Path) (e : DiskError)

/-- A failure in words. Paths stand in it as they are shown (`Path.text`). -/
def Failure.message : Failure → String
  | read path e => "failed to read " ++ path.text ++ ": " ++ e.message
  | extension path => path.text ++ ": unknown source file extension"
  | parse path e => "failed to parse " ++ path.text ++ ": " ++ e.render
  | compile path e => "failed to compile " ++ path.text ++ ": " ++ e.render
  | createDir path e => "failed to create " ++ path.text ++ ": " ++ e.message
  | write path e => "failed to write " ++ path.text ++ ": " ++ e.message

/-- The listing of the tokens of a text (`Token.render`), without its blanks. -/
def tokenListing (d : Dialect) (file text : String) : String :=
  let shown := (Lexer.ofText d file text).tokens.filter fun t => !t.kind.isWhitespace
  String.join (shown.map fun t => t.render ++ "\n")

/-- The outline of the program of a text (`Program.outline`), nothing for a text of blanks. -/
def treeListing (d : Dialect) (file text : String) : Except Error String := do
  match ← parseText d file text with
  | none => return ""
  | some p => return p.outline

/-- What the command prints on its two outputs, and the status that it ends with. -/
structure Report where
  output : String
  failures : List Failure
  status : Nat

namespace Report

/-- The name and version of the command. -/
def versionText : String := "prism 0.0.1\n"

/-- A summary of the arguments. -/
def helpText : String :=
  "Usage: prism [--out-dir DIR] [--output-language brace|block] "
    ++ "[--emit code|ast|tokens] [-v] FILES...\n"

/-- Nothing but a text on the output, and a `status` of success. -/
def ofText (text : String) : Report :=
  { output := text, failures := [], status := 0 }

/-- The arguments made no sense (`Request.usage`). -/
def usage : Report :=
  { output := "", failures := [], status := 2 }

/-- A line for every file that failed, safe to show on a terminal (`Text.disarmed`). -/
def errors (r : Report) : String :=
  String.join (r.failures.map fun f => "ERROR prism: " ++ Text.disarmed f.message ++ "\n")

end Report

variable {m : Type → Type} [Monad m]

/-- Writes the compiled form of a file to its `outputPath`. The directory is made only when
there is something to put into it. -/
def writeCompiled (disk : Disk m) (o : Options) (path : Path) (compiled : String) :
    ExceptT Failure m Unit := do
  if let some dir := o.outDir then
    if let .error e := ← disk.createDir dir then
      throw (.createDir dir e)
  let target := outputPath path o.outDir o.outputDialect
  if let .error e := ← disk.write target compiled then
    throw (.write target e)

/-- Works on one file and gives what is to be printed, which is nothing for `Emit.code`. -/
def processFile (disk : Disk m) (o : Options) (path : Path) : ExceptT Failure m String := do
  match ← disk.read path with
  | .error e => throw (.read path e)
  | .ok text =>
    -- the file is read before its name is looked at
    match inputDialect? path with
    | none => throw (.extension path)
    | some d =>
      match o.emitted with
      | .tokens => return tokenListing d path.text text
      | .tree =>
        match treeListing d path.text text with
        | .ok listing => return listing
        | .error e => throw (.parse path e)
      | .code =>
        match compile d o.outputDialect path.text text with
        | .error e => throw (.compile path e)
        | .ok compiled =>
          writeCompiled disk o path compiled
          return ""

/-- Works on files one after the other (`processFile`). A failure does not keep the later ones
from being worked on. -/
def processFiles (disk : Disk m) (o : Options) : List Path → m (List String × List Failure)
  | [] => return ([], [])
  | path :: paths => do
    let result ← (processFile disk o path).run
    let (texts, failures) ← processFiles disk o paths
    match result with
    | .ok text => return (text :: texts, failures)
    | .error f => return (texts, f :: failures)

/-- Runs the command with its arguments: what `Request.ofArgs` makes of them. -/
def run (disk : Disk m) (args : List String) : m Report := do
  match Request.ofArgs args with
  | .usage => return .usage
  | .version => return .ofText Report.versionText
  | .help => return .ofText Report.helpText
  | .run o =>
    let (texts, failures) ← processFiles disk o o.files
    return { output := String.join texts, failures, status := if failures.isEmpty then 0 else 1 }

end Diglot.Command

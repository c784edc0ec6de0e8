import Diglot.Dialect
import Diglot.Path

/-!
# Options

What the arguments of the command ask for. Arguments are read from left to right; the first that is
wrong, or that asks for the version or for help, decides.

- `Emit`: what to make of each file.
- `Options`: what was asked for.
- `Request`: what the arguments come to.
- `Request.ofArgs`: reads the arguments.
-/

namespace Diglot.Command

/-- What to make of each file (`processFile`). -/
inductive Emit where
  /-- Write the compiled file. -/
  | code
  /-- Print the outline of the tree. -/
  | tree
  /-- Print the tokens. -/
  | tokens
  deriving DecidableEq, Repr

/-- The choice with a name. -/
def Emit.ofName? : String → Option Emit
  | "code" => some .code
  | "ast" => some .tree
  | "tokens" => some .tokens
  | _ => none

/-- The output dialect with a name. Other names than `Dialect.name` are known as well. -/
def outputDialect? : String → Option Dialect
  | "brace" | "js" | "sjs" => some .brace
  | "block" | "sp1" => some .block
  | _ => none

/-- What was asked for. What is missing has not been said; `outputDialect` and `emitted` know
what holds then. -/
structure Options where
  outDir : Option Path
  output : Option Dialect
  emit : Option Emit
  verbose : Bool
  files : List Path

namespace Options

/-- Nothing has been said yet. -/
def empty : Options :=
  { outDir := none, output := none, emit := none, verbose := false, files := [] }

/-- The dialect of the compiled files, `brace` unless said otherwise. -/
def outputDialect (o : Options) : Dialect :=
  o.output.getD .brace

/-- What to make of each file, `code` unless said otherwise. -/
def emitted (o : Options) : Emit :=
  o.emit.getD .code

end Options

/-- What the arguments come to, as `Request.ofArgs` finds. -/
inductive Request where
  /-- Files are to be worked on. -/
  | run (o : Options)
  /-- The version was asked for. -/
  | version
  /-- Help was asked for. -/
  | help
  /-- The arguments make no sense. -/
  | usage

/-- An option that takes a value, which `Options.set?` sets. -/
inductive ValueOption where
  | outDir | outputLanguage | emit
  deriving DecidableEq, Repr

/-- The `ValueOption` with a name. -/
def ValueOption.ofName? : String → Option ValueOption
  | "out-dir" => some .outDir
  | "output-language" => some .outputLanguage
  | "emit" => some .emit
  | _ => none

namespace Options

/-- Sets an option to a value. An option may be given once, and a directory may not be empty. -/
def set? (o : Options) (opt : ValueOption) (value : String) : Option Options :=
  match opt with
  | .outDir =>
    if o.outDir.isSome || value.isEmpty then none
    else some { o with outDir := some (.ofText value) }
  | .outputLanguage =>
    if o.output.isSome then none
    else (outputDialect? value).map fun d => { o with output := some d }
  | .emit =>
    if o.emit.isSome then none
    else (Emit.ofName? value).map fun e => { o with emit := some e }

/-- Adds a file. Its name may not be empty. -/
def addFile? (o : Options) (file : String) : Option Options :=
  if file.isEmpty then none else some { o with files := o.files ++ [.ofText file] }

/-- Asks for a log of the work, which may be done once. -/
def setVerbose? (o : Options) : Option Options :=
  if o.verbose then none else some { o with verbose := true }

end Options

/-! ## Arguments -/

/-- An argument by its form, before it is known to name an option that there is. -/
inductive Argument where
  /-- Two dashes alone: only files follow. -/
  | endOfOptions
  /-- Two dashes and a name, perhaps with a value after an equals sign. -/
  | long (name : String) (value : Option String)
  /-- One dash and letters. -/
  | short (letters : List Char)
  /-- Anything else. -/
  | plain (text : String)

/-- Reads the form of an argument. A single dash is no option. -/
def Argument.ofText (text : String) : Argument :=
  match text.toList with
  | ['-', '-'] => .endOfOptions
  | '-' :: '-' :: cs =>
    let name := cs.takeWhile (· ≠ '=')
    let value := (cs.drop name.length).tail
    .long (String.ofList name)
      (if name.length = cs.length then none else some (String.ofList value))
  | '-' :: c :: cs => .short (c :: cs)
  | _ => .plain text

/-- What one step of reading the arguments leads to. -/
inductive Progress where
  /-- Reading goes on. -/
  | more (o : Options)
  /-- The arguments are decided. -/
  | done (r : Request)

/-- Goes on unless an option could not be set, which makes the arguments `usage`. -/
def Progress.ofOption : Option Options → Progress
  | some o => .more o
  | none => .done .usage

/-- Reads letters after one dash, one `setVerbose?` for each `v`. -/
def readLetters (o : Options) : List Char → Progress
  | [] => .more o
  | 'v' :: cs =>
    match o.setVerbose? with
    | some o => readLetters o cs
    | none => .done .usage
  | 'V' :: _ => .done .version
  | 'h' :: _ => .done .help
  | _ => .done .usage

/-- Reads a name after two dashes that is no `ValueOption`. -/
def readFlag (o : Options) (name : String) (value : Option String) : Progress :=
  match name, value with
  | "verbose", none => .ofOption o.setVerbose?
  | "version", none => .done .version
  | "help", none => .done .help
  | _, _ => .done .usage

/-- Adds files (`addFile?`), whatever their names look like. -/
def readFiles (o : Options) (files : List String) : Request :=
  match files with
  | [] => if o.files.isEmpty then .usage else .run o
  | f :: fs =>
    match o.addFile? f with
    | some o => readFiles o fs
    | none => .usage

/-- Reads the arguments from left to right, by their form (`Argument.ofText`). -/
def readArgs (o : Options) : List String → Request
  | [] => if o.files.isEmpty then .usage else .run o
  | a :: rest =>
    match Argument.ofText a with
    | .endOfOptions => readFiles o rest
    | .plain file =>
      match o.addFile? file with
      | some o => readArgs o rest
      | none => .usage
    | .short letters =>
      match readLetters o letters with
      | .more o => readArgs o rest
      | .done r => r
    | .long name value =>
      match ValueOption.ofName? name, value, rest with
      | none, value, rest =>
        match readFlag o name value with
        | .more o => readArgs o rest
        | .done r => r
      | some opt, some value, rest =>
        match o.set? opt value with
        | some o => readArgs o rest
        | none => .usage
      | some _, none, [] => .usage
      | some opt, none, next :: rest =>
        -- the value may not look like an option itself
        match Argument.ofText next with
        | .plain value =>
          match o.set? opt value with
          | some o => readArgs o rest
          | none => .usage
        | _ => .usage

/-- What the arguments of the command come to: `readArgs` with nothing said yet. -/
def Request.ofArgs (args : List String) : Request :=
  readArgs .empty args

end Diglot.Command

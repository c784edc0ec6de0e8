import Diglot.Dialect
import Diglot.Text.Utf8

/-!
# Paths

File paths with slashes between their segments. A path is what the system knows a file by, so it is
made of bytes, and need not be a text. It names a file by its last segment, passing over empty
segments and single dots at its end; a path that ends in two dots, or in nothing, names none.

- `Path.ofText`, `Path.text`, `Path.text?`: texts as paths, and paths as texts.
- `Path.fileName?`, `Path.stem?`, `Path.extension?`: the name of the file and its two parts.
- `Path.withExtension`, `Path.join`: paths made from others.
- `inputDialect?`, `outputPath`: which dialect a file is written in, and where its compiled form
  goes.
-/

namespace Diglot

/-- Where a file is, in `Bytes`. -/
structure Path where
  bytes : Bytes
  deriving DecidableEq, Repr

namespace Path

/-- The byte between two segments. -/
abbrev slash : UInt8 := 0x2F

/-- The byte before an extension. -/
abbrev dot : UInt8 := 0x2E

/-- The path that a text spells, by its `Text.bytes`. -/
def ofText (text : String) : Path :=
  { bytes := Text.bytes text }

/-- The text that a path is shown as (`Text.shown`). -/
def text (path : Path) : String :=
  Text.shown path.bytes

/-- The text that spells a path, if there is one (`Text.ofBytes?`). -/
def text? (path : Path) : Option String :=
  Text.ofBytes? path.bytes

/-- The segments of a path, between each `slash` and the next. -/
def segments : Bytes → List Bytes
  | [] => [[]]
  | b :: bs =>
    if b = slash then [] :: segments bs
    else
      match segments bs with
      | [] => [[b]]
      | s :: ss => (b :: s) :: ss

/-- Whether a segment at the end of a path is passed over (`split?`). -/
def isFiller (segment : Bytes) : Bool :=
  segment.isEmpty || segment == [dot]

/-- A path up to its file name, and the name itself. What `isFiller` holds of at the end does
not count. -/
def split? (path : Path) : Option (Bytes × Bytes) :=
  match (segments path.bytes).reverse.dropWhile isFiller with
  | [] => none
  | name :: before =>
    if name = [dot, dot] then none else some (before.reverse.flatMap (· ++ [slash]), name)

/-- The part of a file name before its last `dot`, and the part after it. A dot at the start of
the name divides nothing. -/
def splitName (name : Bytes) : Bytes × Option Bytes :=
  let after := (name.reverse.takeWhile (· ≠ dot)).reverse
  let before := name.take (name.length - after.length - 1)
  if after.length = name.length ∨ before = [] then (name, none) else (before, some after)

/-- The name of the file that a path leads to (`split?`). -/
def fileName? (path : Path) : Option Bytes :=
  path.split?.map fun (_, name) => name

/-- The file name without its extension, by `splitName`. -/
def stem? (path : Path) : Option Bytes :=
  path.split?.map fun (_, name) => (splitName name).1

/-- The extension of the file name, without its dot, by `splitName`. -/
def extension? (path : Path) : Option Bytes := do
  let (_, name) ← path.split?
  (splitName name).2

/-- The path with an extension after the stem of its file (`stem?`). A path that names no file
stays as it is. -/
def setExtension (path : Path) (extension : Bytes) : Path :=
  match path.split? with
  | none => path
  | some (lead, name) => { bytes := lead ++ (splitName name).1 ++ dot :: extension }

/-- The path without as many bytes at its end as its `extension?` has. -/
def withoutExtension (path : Path) : Path :=
  { bytes := path.bytes.take (path.bytes.length - (path.extension?.getD []).length) }

/-- The path with another extension for its file. The old one is taken off first
(`withoutExtension`), and where nothing but two dots is left of the name, there is no file any
more that could get an extension. -/
def withExtension (path : Path) (extension : Bytes) : Path :=
  path.withoutExtension.setExtension extension

/-- Whether a path begins at the root, that is, with a `slash`. -/
def isAbsolute (path : Path) : Bool :=
  path.bytes.head? == some slash

/-- A path below a directory. One that `isAbsolute` stays as it is. -/
def join (dir path : Path) : Path :=
  if path.isAbsolute then path
  else if dir.bytes.isEmpty || dir.bytes.getLast? == some slash then
    { bytes := dir.bytes ++ path.bytes }
  else { bytes := dir.bytes ++ slash :: path.bytes }

end Path

/-- The dialect that a file is written in, by its `extension?`. -/
def inputDialect? (path : Path) : Option Dialect :=
  (path.extension?.bind Text.ofBytes?).bind Dialect.ofExtension?

/-- Where the compiled form of a file goes: beside it, with a double extension, or into a
directory under its own stem, as the stem is shown (`Text.shown`). -/
def outputPath (path : Path) (outDir : Option Path) (output : Dialect) : Path :=
  match outDir with
  | none => path.withExtension (Text.bytes ("compiled." ++ output.extension))
  | some dir =>
    dir.join (.ofText (Text.shown (path.stem?.getD path.bytes) ++ "." ++ output.extension))

end Diglot

import Diglot.Lexeme.Scan

/-!
# Expected output

The trailer of a program says what it should print. To compare it with what was printed, both are
brought to one form: trimmed lines, without the empty ones.

- `normalizeOutput`: the form of a text that was printed.
- `expectedOutput`: the form of a trailer, without its marker and its comment marks.
-/

namespace Diglot

/-- Lines after `Text.trim`, without the empty ones. -/
def normalizeLines (ls : List (List Char)) : List (List Char) :=
  (ls.map Text.trim).filter fun l => !l.isEmpty

/-- Lines as one text, with a line feed between each two. -/
def joinLines (ls : List (List Char)) : String :=
  "\n".intercalate (ls.map String.ofList)

/-- What was printed, in the form in which outputs are compared (`normalizeLines`). -/
def normalizeOutput (printed : String) : String :=
  joinLines (normalizeLines (Text.lines printed.toList))

/-- A line of a trailer without its comment mark and the blanks around (`Text.trim`). -/
def uncomment (line : List Char) : List Char :=
  let line := Text.trimStart line
  Text.trim (if Lexeme.startsWith "//" line then line.drop 2 else line)

/-- The lines of a trailer after the one with its `outputMarker`. -/
def dropMarker : List (List Char) → List (List Char)
  | [] => []
  | l :: ls => if Lexeme.startsWith Lexeme.outputMarker l then ls else l :: ls

/-- What a trailer expects, in the form in which outputs are compared (`normalizeLines`). Empty
lines may stand before the marker. -/
def expectedOutput (trailer : String) : String :=
  let ls := (Text.lines trailer.toList).map uncomment
  joinLines (normalizeLines (dropMarker (ls.dropWhile List.isEmpty)))

end Diglot

import Diglot.Text.Blank

/-!
# Scans

A scan looks at the text that is still to be read and says how many of its first characters make
up one lexeme of a certain class, zero when there is none. The scans that need no dialect are here;
`Diglot.Lexeme.Rule` puts them in order.

- `fixed`, `word`: fixed text and whole words.
- `newline`, `whitespace`, `lineComment`, `blockComment`, `outputComment`: what stands between the
  significant tokens.
- `regexp`, `string`, `badString`, `flonum`, `fixnum`, `symbol`, `assign`: the classes with many
  members.
-/

namespace Diglot.Lexeme

/-- A scan gives the number of characters of the lexeme at the start of a text, zero for none. -/
abbrev Scan := List Char → Nat

/-! ## Characters -/

/-- Letters, digits and the underscore make up words. Only ASCII characters count. -/
def isWordChar (c : Char) : Bool :=
  c.isAlphanum || c == '_'

/-- Words begin with a letter or the underscore, that is, with an `isWordChar` that is no digit. -/
def isWordStart (c : Char) : Bool :=
  c.isAlpha || c == '_'

/-- The characters that end a line. -/
def isBreak (c : Char) : Bool :=
  c == '\r' || c == '\n'

/-- The blanks that may stand before a comment mark, which are fewer than `isSpace` knows. -/
def isIndent (c : Char) : Bool :=
  c == ' ' || c == '\t'

/-- The blanks that separate tokens within a line. A carriage return is one of them. -/
def isSpace (c : Char) : Bool :=
  c == ' ' || c == '\t' || c == '\r' || c == '\x0b' || c == '\x0c'

/-- The quotes that begin a string. -/
def isQuote (c : Char) : Bool :=
  c == '\x22' || c == '\x27' || c == '\x60'

/-- A string between these quotes may span lines: of those that `isQuote` knows, the backquote
alone. -/
def isMultiline (quote : Char) : Bool :=
  quote == '\x60'

/-! ## Runs and fixed text -/

/-- The length of the longest run of characters of a class. -/
def run (p : Char → Bool) : Scan :=
  fun cs => (cs.takeWhile p).length

/-- The length of what is left of the line, without its break (`isBreak`). -/
def restOfLine : Scan :=
  run fun c => !isBreak c

/-- Whether a text begins with `lead`. -/
def startsWith (lead : String) (cs : List Char) : Bool :=
  lead.toList.isPrefixOf cs

/-- Scans for one fixed text, as `startsWith` finds it. -/
def fixed (spelling : String) : Scan :=
  fun cs => if startsWith spelling cs then spelling.length else 0

/-- Scans for one fixed text that no further `isWordChar` follows. -/
def word (spelling : String) : Scan :=
  fun cs => if cs.takeWhile isWordChar = spelling.toList then spelling.length else 0

/-! ## Blanks and comments -/

/-- A line feed, or a carriage return and a line feed. -/
def newline : Scan
  | '\r' :: '\n' :: _ => 2
  | '\n' :: _ => 1
  | _ => 0

/-- A run of the blanks that `isSpace` knows. -/
def whitespace : Scan :=
  run isSpace

/-- A comment from its two slashes to the end of the line. -/
def lineComment : Scan :=
  fun cs => if startsWith "//" cs then restOfLine cs else 0

/-- The number of characters up to and including the first mark that closes a comment. -/
def blockCommentEnd : List Char → Option Nat
  | '*' :: '/' :: _ => some 2
  | _ :: cs => (blockCommentEnd cs).map (· + 1)
  | [] => none

/-- A comment between its two marks, up to its `blockCommentEnd`. One that is never closed is no
comment. -/
def blockComment : Scan :=
  fun cs =>
    if startsWith "/*" cs then
      match blockCommentEnd (cs.drop 2) with
      | some n => 2 + n
      | none => 0
    else 0

/-- The word that follows the slashes on the first line of an expected-output trailer
(`startsTrailer`). -/
def outputMarker : String := "OUTPUT:"

/-- One further comment line of a trailer: the `newline` before it, its indentation, and the
`lineComment` itself. -/
def trailerLine : Scan :=
  fun cs =>
    let start := newline cs
    let indent := run isIndent (cs.drop start)
    let comment := lineComment (cs.drop (start + indent))
    if start = 0 ∨ comment = 0 then 0 else start + indent + comment

/-- As many times a `trailerLine` as there are some. -/
def trailerLines (cs : List Char) : Nat :=
  if trailerLine cs = 0 then 0 else trailerLine cs + trailerLines (cs.drop (trailerLine cs))
termination_by cs.length
decreasing_by
  rename_i h
  have : cs ≠ [] := fun hnil => h (hnil ▸ rfl)
  have := List.length_pos_iff.2 this
  simp only [List.length_drop]
  omega

/-- Whether a text begins with two slashes, blanks and the `outputMarker`. -/
def startsTrailer (cs : List Char) : Bool :=
  startsWith "//" cs && startsWith outputMarker ((cs.drop 2).dropWhile isIndent)

/-- The expected-output trailer: the line with the marker (`startsTrailer`) and the
`trailerLines` right after it, provided that nothing but blanks follows. -/
def outputComment : Scan :=
  fun cs =>
    if startsTrailer cs then
      let first := restOfLine cs
      let n := first + trailerLines (cs.drop first)
      if (cs.drop n).all Text.isBlank then n else 0
    else 0

/-! ## Regular expressions and strings -/

/-- The number of characters of a regular expression's body and its closing slash, or `none` when
the line ends first. A slash within a class does not close the body. -/
def regexpBody (inClass : Bool) : List Char → Option Nat
  | [] => none
  | c :: cs =>
    if isBreak c then none
    else if c == '\\' then
      match cs with
      | [] => none
      | e :: rest => if isBreak e then none else (regexpBody inClass rest).map (· + 2)
    else if c == '/' && !inClass then some 1
    else (regexpBody (c == '[' || c != ']' && inClass) cs).map (· + 1)

/-- The letters that may follow a regular expression (`regexp`). -/
def isFlag (c : Char) : Bool :=
  c == 'g' || c == 'm' || c == 'i' || c == 's'

/-- A regular expression: a slash, a `regexpBody` that begins neither with a blank nor with a
star, and flags (`isFlag`). -/
def regexp : Scan
  | '/' :: c :: cs =>
    if Text.isBlank c || c == '*' then 0
    else
      match regexpBody false (c :: cs) with
      | some n => 1 + n + run isFlag ((c :: cs).drop n)
      | none => 0
  | _ => 0

/-- The number of characters of a string's body and its closing `quote`, or `none` when there is
no such quote. A backslash takes the next character with it, and only a string that is
`isMultiline` holds line feeds. -/
def stringBody (quote : Char) : List Char → Option Nat
  | [] => none
  | c :: cs =>
    if c == '\\' then
      match cs with
      | [] => none
      | e :: rest =>
        if e == '\n' && !isMultiline quote then none else (stringBody quote rest).map (· + 2)
    else if c == '\n' && !isMultiline quote then none
    else if c == quote then some 1
    else (stringBody quote cs).map (· + 1)

/-- A string with both its quotes: one that `isQuote` knows, and a `stringBody`. -/
def string : Scan
  | [] => 0
  | q :: cs =>
    if isQuote q then
      match stringBody q cs with
      | some n => 1 + n
      | none => 0
    else 0

/-- A quote and what is left of its line: what `string` makes nothing of. -/
def badString : Scan
  | [] => 0
  | q :: cs => if isQuote q then restOfLine (q :: cs) else 0

/-! ## Numbers, names and assignments -/

/-- A run of digits. -/
def fixnum : Scan :=
  run Char.isDigit

/-- An exponent: its letter, perhaps a sign, and digits. Without digits there is no exponent. -/
def exponent : Scan
  | [] => 0
  | e :: cs =>
    if e == 'e' || e == 'E' then
      let sign := if cs.head? = some '+' ∨ cs.head? = some '-' then 1 else 0
      let digits := fixnum (cs.drop sign)
      if digits = 0 then 0 else 1 + sign + digits
    else 0

/-- A number with a point between two runs of digits (`fixnum`), and perhaps an `exponent`. -/
def flonum : Scan :=
  fun cs =>
    let whole := fixnum cs
    let fraction := fixnum (cs.drop (whole + 1))
    if whole = 0 ∨ fraction = 0 ∨ cs[whole]? ≠ some '.' then 0
    else whole + 1 + fraction + exponent (cs.drop (whole + 1 + fraction))

/-- A word that begins as `isWordStart` asks. It may be a reserved one: the rules for those come
first. -/
def symbol : Scan
  | [] => 0
  | c :: cs => if isWordStart c then run isWordChar (c :: cs) else 0

/-- The signs that an equals sign turns into a compound assignment. -/
def isCompound (c : Char) : Bool :=
  c == '-' || c == '+' || c == '*' || c == '/' || c == '%'

/-- An equals sign, alone or after a sign that `isCompound`. -/
def assign : Scan
  | '=' :: _ => 1
  | c :: '=' :: _ => if isCompound c then 2 else 0
  | _ => 0

end Diglot.Lexeme

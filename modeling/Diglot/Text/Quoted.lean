import Diglot.Text.GraphemeExtend
import Diglot.Text.Printable

/-!
# Quoted text

Text shown between double quotes so that its characters can be told apart: line breaks, quotes and
backslashes are escaped, and so is every character that would not be seen, or would merge with its
neighbour.

- `isDistinct`: whether a character is seen, and seen apart from the one before it.
- `escape`: one character as it stands between the quotes.
- `quote`: the whole text, with its quotes.
-/

namespace Diglot.Text

/-- The digits of a code point in base sixteen, lower case, without leading zeros. -/
def hexDigits (n : Nat) : String :=
  String.ofList (Nat.toDigits 16 n)

/-- A character by its number, in `hexDigits`. -/
def codePoint (c : Char) : String :=
  "\\u\x7b" ++ hexDigits c.toNat ++ "\x7d"

/-- The letters that fill the place of a Hangul letter with nothing: printable, but never seen. -/
def isFiller (c : Char) : Bool :=
  c == '\u3164' || c == '\uffa0'

/-- The halfwidth voicing marks. They extend the character before them, but are letters with a
shape and a place of their own. -/
def isVoicingMark (c : Char) : Bool :=
  c == '\uff9e' || c == '\uff9f'

/-- Whether a character is seen, and seen apart from the one before it: `isPrintable`, no
`isFiller`, and extending nothing unless it is a voicing mark. -/
def isDistinct (c : Char) : Bool :=
  isPrintable c && !isFiller c && (!isExtend c || isVoicingMark c)

/-- A character between quotes: as it stands if `isDistinct`, by its `codePoint` if not. The
apostrophe needs no escape. -/
def escape (c : Char) : String :=
  match c with
  | '\x00' => "\\0"
  | '\t' => "\\t"
  | '\r' => "\\r"
  | '\n' => "\\n"
  | '\x22' => "\\\""
  | '\\' => "\\\\"
  | c => if isDistinct c then String.singleton c else codePoint c

/-- Text between double quotes, with every character as `escape` writes it. -/
def quote (text : String) : String :=
  "\"" ++ String.join (text.toList.map escape) ++ "\""

end Diglot.Text

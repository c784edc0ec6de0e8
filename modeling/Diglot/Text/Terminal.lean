import Diglot.Text.Quoted

/-!
# Text for a terminal

Messages may repeat text from a file, and some characters make a terminal act instead of showing
anything. In a message these stand by their numbers. Line breaks, tabs and the other controls, which
do no harm, are left as they are.

- `disarm`: one character as it stands in a message.
- `disarmed`: a whole message.
-/

namespace Diglot.Text

/-- A character in a message. Bell, backspace, form feed, escape, delete and the controls from
U+0080 to U+009F are the ones that a terminal obeys; the last of these stand by their
`codePoint`. -/
def disarm (c : Char) : String :=
  match c with
  | '\x07' => "\\x07"
  | '\x08' => "\\x08"
  | '\x0c' => "\\x0c"
  | '\x1b' => "\\x1b"
  | '\x7f' => "\\x7f"
  | c => if 0x80 ≤ c.toNat ∧ c.toNat ≤ 0x9F then codePoint c else String.singleton c

/-- A message that a terminal shows and does not obey: `disarm` on every character. -/
def disarmed (message : String) : String :=
  String.join (message.toList.map disarm)

end Diglot.Text

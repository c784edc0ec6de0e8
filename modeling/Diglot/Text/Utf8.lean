/-!
# Texts as bytes

The system knows a file by bytes, which need not be the bytes of a text. They are read one after the
other. A character of more than one byte is pending until its last byte has come; a byte that cannot
follow breaks it off, and is then read afresh.

- `Text.bytes`: the bytes of a text.
- `Text.Pending`: a character of which the first bytes have been read.
- `Text.decode`: the characters that bytes stand for, with `none` for each broken part.
- `Text.ofBytes?`: the text that bytes are, unless a part of them is broken.
- `Text.shown`: the text that bytes are shown as, broken or not.
-/

namespace Diglot

/-- What the system knows a file by; `Text.shown` gives the text that it looks like. -/
abbrev Bytes := List UInt8

namespace Text

/-- The bytes of a text, in UTF-8. `Text.decode` reads them back. -/
def bytes (s : String) : Bytes :=
  s.toList.flatMap String.utf8EncodeChar

/-- A character of which the first bytes have been read, and what `Pending.step` needs to go on. -/
structure Pending where
  /-- The bits that these bytes give, six of them to a byte after the first. -/
  bits : Nat
  /-- How many bytes come after the next one. -/
  later : Nat
  /-- The least byte that can be next. -/
  low : Nat
  /-- The greatest byte that can be next. -/
  high : Nat
  deriving DecidableEq, Repr

/-- Reads the byte `n` where a character begins: gives what has been read, and what is pending. The
bounds for the second byte leave out characters that fewer bytes would do for, surrogates, and
numbers beyond the last character. -/
def lead (n : Nat) : List (Option Char) × Option Pending :=
  if n < 0x80 then ([some (Char.ofNat n)], none)
  else if n < 0xC2 then ([none], none)
  else if n < 0xE0 then
    ([], some { bits := n - 0xC0, later := 0, low := 0x80, high := 0xBF })
  else if n < 0xF0 then
    ([], some {
      bits := n - 0xE0, later := 1,
      low := if n = 0xE0 then 0xA0 else 0x80,
      high := if n = 0xED then 0x9F else 0xBF })
  else if n < 0xF5 then
    ([], some {
      bits := n - 0xF0, later := 2,
      low := if n = 0xF0 then 0x90 else 0x80,
      high := if n = 0xF4 then 0x8F else 0xBF })
  else ([none], none)

/-- Reads the byte `n` after those of a pending character. A byte out of bounds begins anew
(`lead`). -/
def Pending.step (p : Pending) (n : Nat) : List (Option Char) × Option Pending :=
  if p.low ≤ n ∧ n ≤ p.high then
    let bits := p.bits * 64 + (n - 0x80)
    match p.later with
    | 0 => ([some (Char.ofNat bits)], none)
    | later + 1 => ([], some { bits, later, low := 0x80, high := 0xBF })
  else (none :: (lead n).1, (lead n).2)

/-- The characters that bytes stand for, from a pending character on. Every part that is broken, or
broken off at the end, gives one `none`. -/
def decode : Option Pending → Bytes → List (Option Char)
  | none, [] => []
  | some _, [] => [none]
  | none, b :: bs => (lead b.toNat).1 ++ decode (lead b.toNat).2 bs
  | some p, b :: bs => (p.step b.toNat).1 ++ decode (p.step b.toNat).2 bs

/-- The character that stands for a broken part in what is `shown`. -/
def replacement : Char := '�'

/-- The text that bytes are shown as: what `decode` finds, with a `replacement` for every broken
part. -/
def shown (bs : Bytes) : String :=
  String.ofList ((decode none bs).map (·.getD replacement))

/-- The text that bytes are. There is none where `decode` finds a broken part. -/
def ofBytes? (bs : Bytes) : Option String :=
  if none ∈ decode none bs then none else some (shown bs)

end Text

end Diglot

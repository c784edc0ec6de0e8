/-!
# Blank characters, trimming and lines

A character is *blank* when it has the Unicode property White_Space. This is a wider class than
the blanks that separate tokens: it holds the no-break space and the line and paragraph
separators, and it decides where trimmed text begins and ends.

- `isBlank`: the White_Space property.
- `trimStart`, `trim`: text without the blanks at its start, or at both ends.
- `lines`: the lines of a text, each without its line break.
-/

namespace Diglot.Text

/-- The characters with the Unicode property White_Space, as closed ranges of code points. -/
def blankRanges : List (Nat × Nat) :=
  [ (0x09, 0x0D), (0x20, 0x20), (0x85, 0x85), (0xA0, 0xA0), (0x1680, 0x1680), (0x2000, 0x200A)
  , (0x2028, 0x2029), (0x202F, 0x202F), (0x205F, 0x205F), (0x3000, 0x3000) ]

/-- Whether a character has the property White_Space, that is, stands within `blankRanges`. -/
def isBlank (c : Char) : Bool :=
  blankRanges.any fun (lo, hi) => lo ≤ c.toNat && c.toNat ≤ hi

/-- Drops the blanks (`isBlank`) at the start. -/
def trimStart (cs : List Char) : List Char :=
  cs.dropWhile isBlank

/-- Drops the blanks at the end: `trimStart` from the other side. -/
def trimEnd (cs : List Char) : List Char :=
  (trimStart cs.reverse).reverse

/-- Drops the blanks at both ends: `trimStart`, then `trimEnd`. -/
def trim (cs : List Char) : List Char :=
  trimEnd (trimStart cs)

/-- The lines of a text. A line ends at a line feed, which is left out together with one carriage
return right before it; what follows the last line feed is a line too, unless it is empty. -/
def lines : List Char → List (List Char)
  | [] => []
  | '\r' :: '\n' :: cs => [] :: lines cs
  | '\n' :: cs => [] :: lines cs
  | c :: cs =>
    match lines cs with
    | [] => [[c]]
    | line :: rest => (c :: line) :: rest

/-! ## Small facts -/

/-- `trimStart` leaves nothing blank at the start. -/
theorem head?_trimStart (cs : List Char) (c : Char) (h : (trimStart cs).head? = some c) :
    isBlank c = false := by
  have := List.head?_dropWhile_not isBlank cs
  unfold trimStart at h
  rw [h] at this
  simpa using this

end Diglot.Text

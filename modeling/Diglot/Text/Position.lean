/-!
# Positions

Where a character stands in a text: its line and its column, both counted from one. A line feed ends
its line; every other character takes one column.

- `Position.start`: the position of the first character.
- `Position.step`, `Position.advance`: the position after a character and after a text.
-/

namespace Diglot

/-- A line and a column, counted from one. -/
structure Position where
  line : Nat
  column : Nat
  deriving DecidableEq, Repr

namespace Position

/-- The position of the first character of a text, from which `step` counts on. -/
def start : Position :=
  { line := 1, column := 1 }

/-- The position after the character `c`. A line feed begins the next line. -/
def step (p : Position) (c : Char) : Position :=
  if c = '\n' then { line := p.line + 1, column := 1 } else { p with column := p.column + 1 }

/-- The position after a text: a `step` for each character. -/
def advance (p : Position) (cs : List Char) : Position :=
  cs.foldl step p

/-- `advance` over two texts goes one text after the other. -/
theorem advance_append (p : Position) (cs ds : List Char) :
    p.advance (cs ++ ds) = (p.advance cs).advance ds := by
  simp [advance, List.foldl_append]

/-- Over a text without line feeds `advance` moves the position along its line. -/
theorem advance_of_not_mem {cs : List Char} (h : '\n' ∉ cs) (p : Position) :
    p.advance cs = { p with column := p.column + cs.length } := by
  induction cs generalizing p with
  | nil => rfl
  | cons c cs ih =>
    simp only [List.mem_cons, not_or] at h
    have hc : c ≠ '\n' := fun e => h.1 e.symm
    have := ih h.2 (p.step c)
    simp only [advance, List.foldl_cons] at this ⊢
    rw [this]
    simp only [step, hc, if_false, List.length_cons, mk.injEq, true_and]
    omega

end Position

end Diglot

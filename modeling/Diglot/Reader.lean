import Diglot.Error
import Diglot.Lexer

/-!
# Readers

A reader is a program's text as the grammar sees it: the significant tokens one after the other,
with the comments between them kept aside. Comments wait in the reader until a place in the tree is
ready to take them, so they never have a say in how the tokens are read.

- `Word`: a significant token with the comments before it; `Word.gather` makes them from tokens.
- `Reader`: the current token, the words after it, and the comments that wait.
- `Parser`: computations on a reader that may fail; `advance`, `take` and `consume` are the ones
  that move it.
-/

namespace Diglot

/-- The comment that a token is, where its kind is one that `isComment` holds of. -/
def Comment.ofToken? (t : Token) : Option Comment :=
  match t.kind with
  | .lineComment => some { kind := .line, text := t.text }
  | .blockComment => some { kind := .block, text := t.text }
  | _ => none

/-- A significant token (`isSignificant`) with the comments between it and the one before. -/
structure Word where
  comments : List Comment
  token : Token

/-- The words of a list of tokens, the first of them preceded by the comments `seen`. What is
neither significant nor a comment is dropped. -/
def Word.gather (seen : List Comment) : List Token → List Word
  | [] => []
  | t :: ts =>
    if t.kind.isSignificant then { comments := seen, token := t } :: gather [] ts
    else gather (seen ++ (Comment.ofToken? t).toList) ts

/-- The text of the expected-output trailer among tokens: the first `outputComment`. -/
def Token.trailer? (ts : List Token) : Option String :=
  (ts.find? fun t => t.kind == .outputComment).map Token.text

/-- Where reading stands: the `current` token, the words `ahead` of it, and the comments that
were passed and have found no place yet. -/
structure Reader where
  pending : List Comment
  current : Token
  ahead : List Word

namespace Reader

/-- A reader of the words of a text (`Word.gather`). A text without any ends at its start. -/
def ofWords (start : Loc) : List Word → Reader
  | [] => { pending := [], current := { kind := .eof, text := "", loc := start }, ahead := [] }
  | w :: ws => { pending := w.comments, current := w.token, ahead := ws }

/-- The reader after the `current` token. At the end of the text it stays where it is. -/
def next (r : Reader) : Reader :=
  match r.ahead with
  | [] => r
  | w :: ws => { pending := r.pending ++ w.comments, current := w.token, ahead := ws }

end Reader

namespace Reader

/-- `next` leaves one token less ahead. -/
theorem length_ahead_next (r : Reader) : r.next.ahead.length = r.ahead.length - 1 := by
  cases h : r.ahead with
  | nil => simp [next, h]
  | cons w ws => simp [next, h]

end Reader

/-- A computation that reads tokens from a `Reader` and may fail with an `Error`. -/
abbrev Parser := StateT Reader (Except Error)

namespace Parser

/-- The current token. -/
def current : Parser Token :=
  return (← get).current

/-- The kind of the `current` token. -/
def kind : Parser TokenKind :=
  return (← get).current.kind

/-- Whether the `current` token is of the kind `k`. -/
def is (k : TokenKind) : Parser Bool :=
  return (← get).current.kind == k

/-- Gives the current token and goes on to the next one (`Reader.next`). -/
def advance : Parser Token := do
  let r ← get
  set r.next
  return r.current

/-- Complains about a token: a failure with the `SyntaxError` of both. -/
def complain {α : Type} (t : Token) (c : Complaint) : Parser α :=
  throw (.source { token := t, complaint := c })

/-- Complains that the `current` token is not what was asked for. -/
def unexpected {α : Type} (what : Expectation) : Parser α := do
  complain (← current) (.expected what)

/-- Goes past the current token if it is of the kind `k`, and tells whether it was. -/
def take (k : TokenKind) : Parser Bool := do
  if ← is k then
    let _ ← advance
    return true
  else
    return false

/-- Gives the current token and goes past it. It has to be of the kind `k`: if it is not, it is
`unexpected`. -/
def consume (k : TokenKind) (what : Expectation) : Parser Token := do
  if ← is k then advance else unexpected what

/-- Takes the comments that wait as `pending`. -/
def takeComments : Parser (List Comment) := do
  let r ← get
  set { r with pending := [] }
  return r.pending

/-- The outcome of a checked construction, whose `Defect` is an `Error.tree`. -/
def build {α : Type} (x : Except Defect α) : Parser α :=
  match x with
  | .ok a => return a
  | .error e => throw (.tree e)

/-! ## What the computations do to a reader -/

/-- `is` holds where the current token is of the kind. -/
theorem run_is_of_eq {k : TokenKind} {r : Reader} (h : r.current.kind = k) :
    (is k).run r = .ok (true, r) :=
  congrArg (fun b => Except.ok (b, r)) (beq_iff_eq.2 h)

/-- `is` fails to hold where the current token is of another kind. -/
theorem run_is_of_ne {k : TokenKind} {r : Reader} (h : r.current.kind ≠ k) :
    (is k).run r = .ok (false, r) :=
  congrArg (fun b => Except.ok (b, r)) (beq_eq_false_iff_ne.2 h)

/-- `take` goes past a token of the right kind. -/
theorem run_take_of_eq {k : TokenKind} {r : Reader} (h : r.current.kind = k) :
    (take k).run r = .ok (true, r.next) := by
  rw [take, StateT.run_bind, run_is_of_eq h]
  rfl

/-- `take` does nothing at a token of another kind. -/
theorem run_take_of_ne {k : TokenKind} {r : Reader} (h : r.current.kind ≠ k) :
    (take k).run r = .ok (false, r) := by
  rw [take, StateT.run_bind, run_is_of_ne h]
  rfl

/-- `consume` gives a token of the right kind and goes past it. -/
theorem run_consume_of_eq {k : TokenKind} {what : Expectation} {r : Reader}
    (h : r.current.kind = k) : (consume k what).run r = .ok (r.current, r.next) := by
  rw [consume, StateT.run_bind, run_is_of_eq h]
  rfl

/-- `consume` complains about a token of another kind. -/
theorem run_consume_of_ne {k : TokenKind} {what : Expectation} {r : Reader}
    (h : r.current.kind ≠ k) :
    (consume k what).run r =
      .error (.source { token := r.current, complaint := .expected what }) := by
  rw [consume, StateT.run_bind, run_is_of_ne h]
  rfl

end Parser

end Diglot

import Diglot.Lexeme.Rule

/-!
# Lexers

A lexer is a text that is still to be read, with the place where it begins and the dialect it is
written in. Reading never fails: text that fits nothing becomes tokens of the kinds `badString` and
`unknown`, for the grammar to refuse. At the end of the text there is no end of `eof` tokens.

- `Lexer.scan`: the next token, whatever it is.
- `Lexer.next`: the next token that is not hidden.
- `Lexer.tokens`: all tokens up to and including the first `eof`.
- `Lexer.length_scan_lt`: unless the text is at its end, reading a token makes it shorter.
-/

namespace Diglot

namespace Loc

/-- The place after a token that begins at `l`. Only the kinds that `spansLines` holds of are
searched for line breaks (`Position.advance`); the other ones move along their line. -/
def after (l : Loc) (kind : TokenKind) (text : String) : Loc :=
  let moved :=
    if kind.spansLines then l.toPosition.advance text.toList
    else { l.toPosition with column := l.column + text.length }
  { l with toPosition := moved, offset := l.offset + text.utf8ByteSize }

end Loc

/-- A text to be read in a `dialect`, from the place `loc` on. -/
structure Lexer where
  dialect : Dialect
  loc : Loc
  rest : List Char

/-- Which of the tokens that carry no meaning are to be seen. -/
structure Visibility where
  whitespace : Bool
  comments : Bool
  deriving DecidableEq, Repr

namespace Visibility

/-- Everything is seen: `hides` holds of no kind. -/
def all : Visibility :=
  { whitespace := true, comments := true }

/-- Whether tokens of a kind are passed over: blanks (`isWhitespace`) and comments (`isComment`)
that are not to be seen. -/
def hides (v : Visibility) (k : TokenKind) : Bool :=
  !v.whitespace && k.isWhitespace || !v.comments && k.isComment

end Visibility

namespace Lexer

/-- A lexer at the start of a file. -/
def ofText (dialect : Dialect) (file text : String) : Lexer :=
  { dialect, loc := .startOf file, rest := text.toList }

/-- The next token, as `classify` cuts it off, and the lexer after it. -/
def scan (l : Lexer) : Token × Lexer :=
  if l.rest.isEmpty then ({ kind := .eof, text := "", loc := l.loc }, l)
  else
    let (kind, n) := Lexeme.classify l.dialect l.rest
    let text := String.ofList (l.rest.take n)
    ({ kind, text, loc := l.loc },
      { l with loc := l.loc.after kind text, rest := l.rest.drop n })

/-- `scan` reads a token other than `eof` only from a text that is not empty. -/
theorem rest_ne_nil_of_kind_scan {l : Lexer} (h : l.scan.1.kind ≠ .eof) : l.rest ≠ [] := by
  intro hnil
  simp [scan, hnil] at h

/-- Before the end of the text `scan` makes it shorter. -/
theorem length_scan_lt {l : Lexer} (h : l.rest ≠ []) :
    l.scan.2.rest.length < l.rest.length := by
  have hpos := Lexeme.classify_pos l.dialect l.rest
  have hlen := List.length_pos_iff.2 h
  simp only [scan, List.isEmpty_iff, h, if_false, List.length_drop]
  omega

/-- The next token that `v` does not hide, and the lexer after it. -/
def next (v : Visibility) (l : Lexer) : Token × Lexer :=
  if v.hides l.scan.1.kind then l.scan.2.next v else l.scan
termination_by l.rest.length
decreasing_by
  rename_i h
  apply length_scan_lt
  apply rest_ne_nil_of_kind_scan
  intro heof
  simp [heof, Visibility.hides, TokenKind.isWhitespace, TokenKind.isComment] at h

/-- All tokens that `scan` reads, up to and including the one that marks the end of the text. -/
def tokens (l : Lexer) : List Token :=
  if l.rest.isEmpty then [l.scan.1] else l.scan.1 :: l.scan.2.tokens
termination_by l.rest.length
decreasing_by
  rename_i h
  exact length_scan_lt (by simpa using h)

/-- At the end of the text `tokens` is one token, which marks it. -/
theorem tokens_of_rest_eq_nil {l : Lexer} (h : l.rest = []) :
    l.tokens = [{ kind := .eof, text := "", loc := l.loc }] := by
  rw [tokens]
  simp [h, scan]

/-- Before the end `tokens` is the next one and those after it. -/
theorem tokens_of_rest_ne_nil {l : Lexer} (h : l.rest ≠ []) :
    l.tokens = l.scan.1 :: l.scan.2.tokens := by
  rw [tokens]
  simp [h]

/-- A token that is not hidden is the `next` one. -/
theorem next_of_not_hides {v : Visibility} {l : Lexer} (h : v.hides l.scan.1.kind = false) :
    l.next v = l.scan := by
  rw [next]
  simp [h]

/-- The lexer after some number of steps of `scan`. -/
def skip : Nat → Lexer → Lexer
  | 0, l => l
  | n + 1, l => l.scan.2.skip n

end Lexer

end Diglot

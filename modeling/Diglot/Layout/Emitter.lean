import Diglot.Layout.Doc
import Diglot.Text.Position

/-!
# Emitters

An emitter writes documents to a sink and keeps track of where on the page it stands. What it has
written stays written, even when a document turns out to hold a fault; the indentation is then what
it was before.

- `Sink`: text that has been taken, perhaps with a limit to its size.
- `Emitter`: a sink, the indentation, the position, and whether anything has been written.
- `Doc.run`: writes a document.
-/

namespace Diglot

/-- A place for text. With a `limit`, it refuses text that would make it longer than so many
bytes. -/
structure Sink where
  text : String
  limit : Option Nat

namespace Sink

/-- The empty sink without a `limit`, which takes everything. -/
def unlimited : Sink :=
  { text := "", limit := none }

/-- Whether a sink takes a text: its `limit` is not passed. -/
def accepts (s : Sink) (text : String) : Bool :=
  match s.limit with
  | none => true
  | some n => s.text.utf8ByteSize + text.utf8ByteSize ≤ n

/-- The sink with a text added to it, if it `accepts` it. -/
def write (s : Sink) (text : String) : Except Error Sink :=
  if s.accepts text then .ok { s with text := s.text ++ text } else .error .sink

/-- `write` succeeds on a sink without a limit. -/
theorem write_of_limit_eq_none {s : Sink} (h : s.limit = none) (text : String) :
    s.write text = .ok { s with text := s.text ++ text } := by
  simp [write, accepts, h]

end Sink

/-- A page that is being written: where its text goes, and where on it the next character will
stand. -/
structure Emitter where
  sink : Sink
  indent : String
  /-- The position of the next character. -/
  position : Position
  /-- Whether anything has been written. -/
  written : Bool

/-- The outcome of writing: the page afterwards, and what stopped it, if anything did. -/
abbrev Outcome := Emitter × Option Error

namespace Emitter

/-- An emitter that has written nothing yet, at `Position.start`. The sink may hold text
already. -/
def ofSink (sink : Sink) : Emitter :=
  { sink, indent := "", position := .start, written := false }

/-- Writes a text to the sink (`Sink.write`). What is refused changes nothing. -/
def emit (text : String) (e : Emitter) : Outcome :=
  match e.sink.write text with
  | .error err => (e, some err)
  | .ok sink =>
    ({ e with
        sink
        position := e.position.advance text.toList
        written := e.written || !text.isEmpty }, none)

/-- Goes on with `k` only if nothing has stopped the writing. -/
def andThen (r : Outcome) (k : Emitter → Outcome) : Outcome :=
  match r with
  | (e, none) => k e
  | (e, some err) => (e, some err)

/-- Writes a line feed, unless nothing has been `written`. -/
def lineFeed (e : Emitter) : Outcome :=
  if e.written then e.emit "\n" else (e, none)

/-- Begins a fresh line at the current indentation: a `lineFeed`, and then the `indent`. -/
def freshLine (e : Emitter) : Outcome :=
  andThen e.lineFeed fun e => e.emit e.indent

/-- Whether a text written now would end past the column `width`. -/
def passes (width : Nat) (text : String) (e : Emitter) : Bool :=
  width < e.position.column + text.length - 1

end Emitter

open Emitter in
/-- Writes a document. The cases follow the constructors of `Doc`; only `within` looks at the
position. -/
def Doc.run : Doc → Emitter → Outcome
  | .empty, e => (e, none)
  | .text s, e => e.emit s
  | .freshLine, e => e.freshLine
  | .lineFeed, e => e.lineFeed
  | .within width inline wrapped, e =>
    if e.passes width inline then wrapped.run e else e.emit inline
  | .indented extra d, e =>
    let (after, stopped) := d.run { e with indent := e.indent ++ extra }
    -- restored even where the writing stopped
    ({ after with indent := e.indent }, stopped)
  | .seq a b, e => andThen (a.run e) b.run
  | .fault defect, e => (e, some (.tree defect))

/-! ## What writing leaves as it was -/

namespace Emitter

/-- It does not matter how writing in three parts is grouped by `andThen`. -/
theorem andThen_assoc (r : Outcome) (f g : Emitter → Outcome) :
    andThen (andThen r f) g = andThen r fun e => andThen (f e) g := by
  obtain ⟨e, _ | err⟩ := r <;> rfl

/-- `emit` leaves the indentation alone. -/
theorem indent_emit (text : String) (e : Emitter) : (e.emit text).1.indent = e.indent := by
  unfold emit
  split <;> rfl

/-- `lineFeed` leaves the indentation alone. -/
theorem indent_lineFeed (e : Emitter) : e.lineFeed.1.indent = e.indent := by
  unfold lineFeed
  split
  · exact indent_emit _ e
  · rfl

/-- `andThen` leaves the indentation alone if both parts do. -/
theorem indent_andThen {r : Outcome} {k : Emitter → Outcome} {indent : String}
    (hr : r.1.indent = indent) (hk : ∀ e, (k e).1.indent = e.indent) :
    (andThen r k).1.indent = indent := by
  obtain ⟨e, _ | err⟩ := r
  · exact (hk e).trans hr
  · exact hr

end Emitter

open Emitter in
/-- `Doc.run` leaves the indentation as it was, whether it writes all of a document or only a
part. -/
theorem Doc.indent_run (d : Doc) (e : Emitter) : (d.run e).1.indent = e.indent := by
  induction d generalizing e with
  | empty => rfl
  | text s => exact indent_emit s e
  | freshLine => exact indent_andThen (indent_lineFeed e) fun e => indent_emit _ e
  | lineFeed => exact indent_lineFeed e
  | within width inline wrapped ih =>
    unfold Doc.run
    split
    · exact ih e
    · exact indent_emit inline e
  | indented extra d _ => rfl
  | seq a b iha ihb => exact indent_andThen (iha e) ihb
  | fault defect => rfl

end Diglot

import Diglot.Grammar.Program
import Diglot.Layout.Emitter
import Diglot.Print.Tree

/-!
# Printing and compiling

Trees as text, and programs taken from one dialect to the other.

- `Emitter.writeProgram`, `Emitter.writeExpr`: printing onto a page that may hold text already.
- `printProgram`, `printExpr`: printing on a page of their own.
- `Sink.put`, `generate`: a text, and the text of a program, added to a sink in place.
- `compile`: from the text of one dialect to the text of another.
-/

namespace Diglot

namespace Emitter

/-- Prints a program: its `Program.doc` with the `surface` of the dialect. -/
def writeProgram (d : Dialect) (p : Program) (e : Emitter) : Outcome :=
  (p.doc d.surface).run e

/-- Prints a lone expression. Its place asks for nothing (`fitted`). -/
def writeExpr (d : Dialect) (x : Expr) (e : Emitter) : Outcome :=
  (x.fitted .comma (x.doc d.surface)).run e

/-- What has been written, unless something stopped the writing. -/
def result : Outcome → Except Error String
  | (e, none) => .ok e.sink.text
  | (_, some err) => .error err

end Emitter

/-- The text of a program in a dialect, as `writeProgram` writes it on an empty page. -/
def printProgram (d : Dialect) (p : Program) : Except Error String :=
  Emitter.result ((Emitter.ofSink .unlimited).writeProgram d p)

/-- The text of an expression in a dialect, as `writeExpr` writes it on an empty page. -/
def printExpr (d : Dialect) (x : Expr) : Except Error String :=
  Emitter.result ((Emitter.ofSink .unlimited).writeExpr d x)

/-- Adds a text to a sink in place: `Sink.write` as a computation on the sink. -/
def Sink.put (text : String) : EStateM Error Sink Unit := do
  let sink ← get
  set (← MonadExcept.ofExcept (sink.write text))

/-- Adds the text of a program (`printProgram`) to a sink in place. The text is complete before
any of it reaches the sink, so a failure leaves the sink as it was. -/
def generate (d : Dialect) (p : Program) : EStateM Error Sink Unit := do
  let text ← MonadExcept.ofExcept (printProgram d p)
  Sink.put text

/-- `Sink.put` adds the whole text or leaves the sink as it was. -/
theorem Sink.run_put (text : String) (sink : Sink) :
    (Sink.put text).run sink =
      if sink.accepts text then .ok () { sink with text := sink.text ++ text }
      else .error .sink sink := by
  have hrun : (Sink.put text).run sink = match sink.write text with
      | .ok after => .ok () after
      | .error err => .error err sink := by
    show EStateM.run (MonadExcept.ofExcept (sink.write text) >>= set) sink = _
    cases sink.write text <;> rfl
  rw [hrun, Sink.write]
  cases sink.accepts text <;> rfl

/-- `generate` adds the whole text of `printProgram`, if there is one and the sink takes it. -/
theorem run_generate (p : Program) (d : Dialect) (sink : Sink) :
    (generate d p).run sink = match printProgram d p with
      | .error err => .error err sink
      | .ok text =>
        if sink.accepts text then .ok () { sink with text := sink.text ++ text }
        else .error .sink sink := by
  unfold generate
  cases printProgram d p with
  | error err => rfl
  | ok text => exact Sink.run_put text sink

/-- Reads a text in one dialect (`parseText`) and prints it in another (`printProgram`). A text
of blanks alone gives no text. -/
def compile (input output : Dialect) (file text : String) : Except Error String := do
  match ← parseText input file text with
  | none => return ""
  | some p => printProgram output p

end Diglot

import Diglot.Proofs.Defects
import Diglot.Proofs.Parsed

/-!
# Parsed trees are printed without fault

A document holds a fault where a tree has something that cannot be printed: `new` before something
that is no path, arguments that are no list, a branch that is no block. Parsing makes no such tree,
so whatever has been parsed is printed to the end, in either dialect.

- `AllNodes.printable`: the nodes of a parsed tree are as the rules of trees ask.
- `Expr.faultless_doc`, `Program.faultless_doc`: the documents of parsed trees.
- `printProgram_of_faultless`: a document without faults is printed as one of its texts.
-/

namespace Diglot

/-- A node that is `Formed` is `Printable`: tokens are asked for as well, which printing does
not look at. -/
theorem Node.Formed.printable {d : Dialect} {n : Node} (h : n.Formed d) : n.Printable := by
  unfold Node.Printable
  split
  · exact h rfl
  · exact h.1 rfl
  · obtain ⟨name, rfl, -⟩ := h.2 rfl
    rfl
  · exact h
  · next other =>
    cases other with
    | ifThen | block => rfl
    | _ => exact h.elim
  · trivial

/-- The nodes of a parsed tree are `Printable`, as the rules of trees ask. -/
theorem AllNodes.printable {d : Dialect} {ns : List Node} (h : AllNodes (Node.Parsed d) ns) :
    AllNodes Node.Printable ns :=
  fun n hn => (h n hn).formed.printable

section Tree

variable {d : Dialect} (s : Surface)

/-- The document of an expression is `faultless` if its nodes are `Parsed`. -/
theorem Expr.faultless_doc (e : Expr) (h : AllNodes (Node.Parsed d) e.nodes) :
    (e.doc s).faultless = true := by
  have hstops := e.stops_doc s
  rw [e.defect?_eq_none_iff.2 h.printable] at hstops
  exact hstops.faultless

/-- The document of a program is `faultless` if its nodes are `Parsed`. -/
theorem Program.faultless_doc {p : Program} (h : AllNodes (Node.Parsed d) p.nodes) :
    (p.doc s).faultless = true := by
  have hstops := p.stops_doc s
  rw [p.defect?_eq_none_iff.2 h.printable] at hstops
  exact hstops.faultless

end Tree

/-! ## Printing -/

/-- A document that is `faultless` is written on an empty page. -/
theorem result_of_faultless {doc : Doc} (h : doc.faultless = true) :
    ∃ text : String, Emitter.result (doc.run (.ofSink .unlimited)) = .ok text ∧
      doc.Writes [] false text.toList := by
  obtain ⟨hnone, T, hT, hwrote⟩ := Doc.run_of_faultless h (e := .ofSink .unlimited) rfl
  refine ⟨String.ofList T, ?_, by rwa [String.toList_ofList]⟩
  generalize doc.run (.ofSink .unlimited) = r at hnone hwrote
  obtain ⟨e, stopped⟩ := r
  obtain rfl : stopped = none := hnone
  have htext := congrArg Sink.text hwrote.sink
  simpa [Emitter.result, Emitter.ofSink, Sink.unlimited] using htext

theorem printProgram_of_faultless {t : Dialect} {p : Program}
    (h : (p.doc t.surface).faultless = true) :
    ∃ text : String, printProgram t p = .ok text ∧
      (p.doc t.surface).Writes [] false text.toList :=
  result_of_faultless h

end Diglot

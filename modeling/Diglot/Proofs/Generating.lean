import Diglot.Proofs.Defects

/-!
# All of a text or nothing

Printing to a sink builds the whole text first. Whether there is one depends on the tree and not on
the dialect, and a sink gets all of it or nothing.

- `generate_all_or_nothing`: both dialects print the same trees, and a sink gets all of a text or
  nothing.
-/

namespace Diglot

/-- **All or nothing**: a program is printed in both dialects, or in none of them and for the same
defect, and it is printed exactly if each of its nodes is as the rules of trees ask. A sink that
takes the text gets all of it after what it holds. If there is a defect, or if the sink does not
take the text, it is left as it was. -/
theorem generate_all_or_nothing (p : Program) :
    ((∀ d, ∃ text, printProgram d p = .ok text) ∨
      ∃ defect, ∀ d, printProgram d p = .error (.tree defect)) ∧
    (∀ d, (∃ text, printProgram d p = .ok text) ↔ AllNodes Node.Printable p.nodes) ∧
    ∀ d sink, (generate d p).run sink = match printProgram d p with
      | .error err => .error err sink
      | .ok text =>
        if sink.accepts text then .ok () { sink with text := sink.text ++ text }
        else .error .sink sink := by
  refine ⟨?_, fun d => exists_printProgram_iff d p, run_generate p⟩
  have hstops (d : Dialect) : (p.doc d.surface).Stops p.defect? := p.stops_doc d.surface
  cases hdefect : p.defect? with
  | none => exact .inl fun d => (hdefect ▸ hstops d).exists_result
  | some defect => exact .inr ⟨defect, fun d => (hdefect ▸ hstops d).result_error⟩

end Diglot

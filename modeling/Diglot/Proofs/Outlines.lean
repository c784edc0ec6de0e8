import Diglot.Proofs.Sketches

/-!
# The sketches of trees

The outline of a tree is the text of a sketch of it, in which each node has a heading with what the
node holds itself. A sketch keeps all of the tree, whatever the tree is: the sort of a node is seen
from its heading, and what it may have or not from the number of nodes below.

- `Expr.sketch`, `Entry.sketch`, `Statement.sketch`, `Declaration.sketch`, `Program.sketch`.
- `Program.outline_eq_render`: the outline of a program is the text of its sketch.
- `Expr.eq_of_sketch_eq` and its companions: a tree is found again from its sketch.
- `Program.eq_of_sketch_eq`: so is a program.
-/

namespace Diglot

open Outline

/-! ## Sketches of trees -/

mutual

/-- The sketch of an expression: its `Heading` and the sketches of its operands. -/
def Expr.sketch : Expr → Sketch
  | .symbol name => ⟨.symbol name, []⟩
  | .literal value => ⟨.literal value, []⟩
  | .grouping inner => ⟨.mark .grouping, [inner.sketch]⟩
  | .unary op operand => ⟨.unary op, [operand.sketch]⟩
  | .step op operand => ⟨.step op, [operand.sketch]⟩
  | .binary op left right => ⟨.binary op, [left.sketch, right.sketch]⟩
  | .ternary test yes no => ⟨.mark .ternary, [test.sketch, yes.sketch, no.sketch]⟩
  | .call callee arguments => ⟨.mark .call, [callee.sketch, arguments.sketch]⟩
  | .index target position => ⟨.mark .index, [target.sketch, position.sketch]⟩
  | .object es => ⟨.mark .object, Entry.sketches es⟩
  | .list es trailingComma => ⟨.list trailingComma, Expr.sketches es⟩
  | .array es => ⟨.mark .array, Expr.sketches es⟩
  | .function name params body => ⟨.function name params, Declaration.sketches body⟩
  | .arrow params body => ⟨.arrow params, [body.sketch]⟩
  | .arrowBlock params body => ⟨.arrowBlock params, Declaration.sketches body⟩

/-- The sketches of expressions. -/
def Expr.sketches : List Expr → List Sketch
  | [] => []
  | e :: es => e.sketch :: Expr.sketches es

/-- The sketch of an object entry. -/
def Entry.sketch : Entry → Sketch
  | .shorthand key => ⟨.pair key, []⟩
  | .pair key value => ⟨.pair key, [value.sketch]⟩

/-- The sketches of object entries. -/
def Entry.sketches : List Entry → List Sketch
  | [] => []
  | e :: es => e.sketch :: Entry.sketches es

/-- The sketch of a statement. Where several parts follow each other, each has a `Mark` of its
own. -/
def Statement.sketch : Statement → Sketch
  | .ifThen test body none =>
    ⟨.mark .ifThen, [test.sketch, ⟨.mark .thenPart, Declaration.sketches body⟩]⟩
  | .ifThen test body (some other) =>
    ⟨.mark .ifThen, [test.sketch, ⟨.mark .thenPart, Declaration.sketches body⟩,
      ⟨.mark .elsePart, [other.sketch]⟩]⟩
  | .whileLoop test body =>
    ⟨.mark .whileLoop, [test.sketch, ⟨.mark .doPart, Declaration.sketches body⟩]⟩
  | .forLoop keyword names collection body bracketed =>
    ⟨.forLoop keyword names bracketed,
      [collection.sketch, ⟨.mark .doPart, Declaration.sketches body⟩]⟩
  | .throw value => ⟨.mark .throw, [value.sketch]⟩
  | .ret none => ⟨.mark .ret, []⟩
  | .ret (some value) => ⟨.mark .ret, [value.sketch]⟩
  | .expr value => value.sketch
  | .block body => ⟨.mark .block, Declaration.sketches body⟩

/-- The sketch of a declaration. A statement has no heading besides its own. -/
def Declaration.sketch : Declaration → Sketch
  | .function name params body exported isAsync =>
    ⟨.declared exported (.function name params isAsync), Declaration.sketches body⟩
  | .var keyword name none exported => ⟨.declared exported (.var keyword name), []⟩
  | .var keyword name (some value) exported =>
    ⟨.declared exported (.var keyword name), [value.sketch]⟩
  | .vars keyword names value exported =>
    ⟨.declared exported (.vars keyword names), [value.sketch]⟩
  | .statement s => s.sketch
  | .comments cs => ⟨.mark .comments, cs.map fun c => ⟨.comment c, []⟩⟩

/-- The sketches of declarations. -/
def Declaration.sketches : List Declaration → List Sketch
  | [] => []
  | x :: xs => x.sketch :: Declaration.sketches xs

end

/-- The `trailer` of a program, if there is one. -/
def Program.trailers (p : Program) : List String :=
  if p.trailer.isEmpty then [] else [p.trailer]

/-- What stands in the outline of a program, one below the other: comments, the module, the
imports, the body and the trailer. -/
def Program.below (p : Program) : List Sketch :=
  p.leading.map (fun c => ⟨.comment c, []⟩)
    ++ p.moduleName.toList.map (fun name => ⟨.moduleName name, []⟩)
    ++ p.imports.map (fun i => ⟨.imported i, []⟩)
    ++ Declaration.sketches p.body
    ++ p.trailers.map (fun text => ⟨.trailer text, []⟩)

/-- The sketch of a program, with `Program.below` under the mark for a whole file. -/
def Program.sketch (p : Program) : Sketch :=
  ⟨.mark .unit, p.below⟩

/-! ## Outlines are the text of sketches -/

section Lines

open Sketch Heading

/-- The lines that `Outline.comment` writes are those of sketches with nothing below. -/
theorem comments_eq_linesOf (depth : Nat) (cs : List Comment) :
    cs.flatMap (Outline.comment depth) = linesOf depth (cs.map fun c => ⟨.comment c, []⟩) := by
  rw [linesOf_eq_flatMap, List.flatMap_map]
  rfl

mutual

/-- `Outline.expr` writes the lines of `Expr.sketch`. The heading of a literal depends on its
sort and that of a list on its last comma, so these two are taken apart. -/
theorem Expr.outline_eq_lines (depth : Nat) (e : Expr) :
    Outline.expr depth e = e.sketch.lines depth := by
  cases e with
  | literal value =>
    cases value <;>
      simp [Outline.expr, Outline.literal, Expr.sketch, title, word, detail, Literal.word,
        Literal.text, ← String.append_assoc]
  | list es trailingComma =>
    cases trailingComma <;>
      simp [Outline.expr, Expr.sketch, title, word, detail, Expr.outline_eq_linesOf _ es]
  | _ =>
    simp [Outline.expr, Expr.sketch, title, word, detail, Mark.word, ← String.append_assoc,
      Expr.outline_eq_lines, Expr.outline_eq_linesOf, Entry.outline_eq_linesOf,
      Declaration.outline_eq_linesOf]
termination_by structural e

theorem Expr.outline_eq_linesOf (depth : Nat) (es : List Expr) :
    Outline.exprs depth es = linesOf depth (Expr.sketches es) := by
  cases es with
  | nil => rfl
  | cons e es =>
    rw [Outline.exprs, Expr.sketches, linesOf_cons, e.outline_eq_lines, Expr.outline_eq_linesOf]
termination_by structural es

/-- `Outline.entry` writes the lines of `Entry.sketch`. -/
theorem Entry.outline_eq_lines (depth : Nat) (e : Entry) :
    Outline.entry depth e = e.sketch.lines depth := by
  cases e with
  | shorthand key =>
    simp [Outline.entry, Entry.sketch, title, word, detail, ← String.append_assoc]
  | pair key value =>
    simp [Outline.entry, Entry.sketch, title, word, detail, ← String.append_assoc,
      value.outline_eq_lines]
termination_by structural e

theorem Entry.outline_eq_linesOf (depth : Nat) (es : List Entry) :
    Outline.entries depth es = linesOf depth (Entry.sketches es) := by
  cases es with
  | nil => rfl
  | cons e es =>
    rw [Outline.entries, Entry.sketches, linesOf_cons, e.outline_eq_lines, Entry.outline_eq_linesOf]
termination_by structural es

/-- `Outline.statement` writes the lines of `Statement.sketch`, whichever optional parts there
are. -/
theorem Statement.outline_eq_lines (depth : Nat) (s : Statement) :
    Outline.statement depth s = s.sketch.lines depth := by
  cases s with
  | ifThen test body other =>
    cases other with
    | none =>
      simp [Outline.statement, Statement.sketch, title, word, detail, Mark.word,
        test.outline_eq_lines, Declaration.outline_eq_linesOf]
    | some other =>
      simp [Outline.statement, Statement.sketch, title, word, detail, Mark.word,
        test.outline_eq_lines, Declaration.outline_eq_linesOf, other.outline_eq_lines]
  | forLoop keyword names collection body bracketed =>
    -- the outline has the word and the blank in one text, the sketch in two
    have hfor (t : String) : "for" ++ (" " ++ t) = "for " ++ t := by
      rw [← String.append_assoc]
      rfl
    cases keyword <;> cases bracketed <;>
      simp [Outline.statement, Statement.sketch, title, word, detail, Mark.word, loopNames_none,
        loopNames_some, collection.outline_eq_lines, Declaration.outline_eq_linesOf, hfor,
        String.append_assoc]
  | ret value =>
    cases value with
    | none => simp [Outline.statement, Statement.sketch, title, word, detail, Mark.word]
    | some value =>
      simp [Outline.statement, Statement.sketch, title, word, detail, Mark.word,
        value.outline_eq_lines]
  | expr value => rw [Outline.statement, Statement.sketch, value.outline_eq_lines]
  | _ =>
    simp [Outline.statement, Statement.sketch, title, word, detail, Mark.word,
      Expr.outline_eq_lines, Declaration.outline_eq_linesOf]
termination_by structural s

/-- `Outline.declaration` writes the lines of `Declaration.sketch`. -/
theorem Declaration.outline_eq_lines (depth : Nat) (x : Declaration) :
    Outline.declaration depth x = x.sketch.lines depth := by
  cases x with
  | function name params body exported isAsync =>
    cases exported <;> cases isAsync <;>
      simp [Outline.declaration, Declaration.sketch, title, word, detail, Declared.word,
        Declared.detail, Outline.exportWord, Declaration.outline_eq_linesOf, ← String.append_assoc]
  | var keyword name value exported =>
    cases value <;> cases exported <;>
      simp [Outline.declaration, Declaration.sketch, title, word, detail, Declared.word,
        Declared.detail, Outline.exportWord, Expr.outline_eq_lines, ← String.append_assoc]
  | vars keyword names value exported =>
    cases exported <;>
      simp [Outline.declaration, Declaration.sketch, title, word, detail, Declared.word,
        Declared.detail, Outline.exportWord, value.outline_eq_lines, ← String.append_assoc]
  | statement s => rw [Outline.declaration, Declaration.sketch, s.outline_eq_lines]
  | comments cs =>
    simp [Outline.declaration, Declaration.sketch, title, word, detail, Mark.word,
      comments_eq_linesOf]
termination_by structural x

/-- `Outline.block` writes those of `Declaration.sketches`. -/
theorem Declaration.outline_eq_linesOf (depth : Nat) (xs : List Declaration) :
    Outline.block depth xs = linesOf depth (Declaration.sketches xs) := by
  cases xs with
  | nil => rfl
  | cons x xs =>
    rw [Outline.block, Declaration.sketches, linesOf_cons, x.outline_eq_lines,
      Declaration.outline_eq_linesOf]
termination_by structural xs

end

/-- `Program.outline` is the text of `Program.sketch`. -/
theorem Program.outline_eq_render (p : Program) : p.outline = render (p.sketch.lines 0) := by
  rw [Program.outline]
  congr 1
  have himports : p.imports.flatMap (Outline.importLine 1) =
      linesOf 1 (p.imports.map fun i => ⟨.imported i, []⟩) := by
    rw [linesOf_eq_flatMap, List.flatMap_map]
    congr 1
    funext i
    cases i <;> simp [Outline.importLine, title, word, detail, ← String.append_assoc]
  have htrailer : (if p.trailer.isEmpty then [] else
      Outline.line 1 ("trailer " ++ Text.quote p.trailer)) =
        linesOf 1 (p.trailers.map fun text => ⟨.trailer text, []⟩) := by
    rw [trailers]
    split
    · rfl
    · simp [title, word, detail, ← String.append_assoc]
  -- the parts of the file one after the other, the module last since it may be missing
  rw [Outline.program, Program.sketch, Program.below, lines_mk]
  simp only [linesOf_append, ← comments_eq_linesOf, ← himports, ← htrailer,
    ← Declaration.outline_eq_linesOf, List.append_assoc]
  cases p.moduleName with
  | none => rfl
  | some name => simp [title, word, detail, Mark.word, ← String.append_assoc]

end Lines

/-! ## Sketches keep the tree -/

namespace Heading

/-- The headings of expressions. -/
def isExpr : Heading → Bool
  | mark m => m ∈ [.grouping, .ternary, .call, .index, .object, .array]
  | symbol _ | literal _ | unary _ | step _ | binary _ | list _ | function .. | arrow _
  | arrowBlock _ => true
  | _ => false

/-- The headings of statements, those of `isExpr` among them. -/
def isStatement : Heading → Bool
  | mark m => (mark m).isExpr || m ∈ [.ifThen, .whileLoop, .throw, .ret, .block]
  | forLoop .. => true
  | h => h.isExpr

/-- The headings of what stands in a file and in no block. -/
def isOuter : Heading → Bool
  | comment _ | moduleName _ | imported _ | trailer _ => true
  | _ => false

end Heading

/-- The `Heading` at the top of a sketch. -/
def Sketch.heading : Sketch → Heading
  | mk h _ => h

/-- `Heading.isExpr` holds of the heading of every expression. -/
theorem Expr.isExpr_sketch (e : Expr) : e.sketch.heading.isExpr = true := by
  cases e <;> rfl

/-- The heading of a statement, whatever its optional parts. -/
def Statement.heading : Statement → Heading
  | .ifThen .. => .mark .ifThen
  | .whileLoop .. => .mark .whileLoop
  | .forLoop keyword names _ _ bracketed => .forLoop keyword names bracketed
  | .throw _ => .mark .throw
  | .ret _ => .mark .ret
  | .expr value => value.sketch.heading
  | .block _ => .mark .block

/-- `Statement.heading` is what stands at the top of `Statement.sketch`. -/
theorem Statement.heading_sketch (s : Statement) : s.sketch.heading = s.heading := by
  cases s with
  | ifThen test body other => cases other <;> rfl
  | ret value => cases value <;> rfl
  | _ => rfl

/-- `Heading.isStatement` holds of the heading of every statement. -/
theorem Statement.isStatement_heading (s : Statement) : s.heading.isStatement = true := by
  cases s with
  | expr e =>
    have he := e.isExpr_sketch
    unfold heading Heading.isStatement
    split <;> simp_all
  | _ => rfl

/-- The heading of a declaration, whatever its optional parts. -/
def Declaration.heading : Declaration → Heading
  | .function name params _ exported isAsync => .declared exported (.function name params isAsync)
  | .var keyword name _ exported => .declared exported (.var keyword name)
  | .vars keyword names _ exported => .declared exported (.vars keyword names)
  | .statement s => s.heading
  | .comments _ => .mark .comments

/-- `Declaration.heading` is what stands at the top of `Declaration.sketch`. -/
theorem Declaration.heading_sketch (x : Declaration) : x.sketch.heading = x.heading := by
  cases x with
  | var keyword name value exported => cases value <;> rfl
  | statement s => exact s.heading_sketch
  | _ => rfl

/-- An expression has no heading but one of an expression. -/
theorem Expr.heading_ne {h : Heading} (hh : h.isExpr = false) (e : Expr) :
    e.sketch.heading ≠ h := by
  rintro rfl
  rw [e.isExpr_sketch] at hh
  cases hh

/-- A statement has no heading but one that satisfies `Heading.isStatement`. -/
theorem Statement.heading_ne {h : Heading} (hh : h.isStatement = false) (s : Statement) :
    s.heading ≠ h := by
  rintro rfl
  rw [s.isStatement_heading] at hh
  cases hh

theorem eq_of_map_comment_eq {cs cs' : List Comment}
    (h : (cs.map fun c => Sketch.mk (.comment c) []) = cs'.map fun c => .mk (.comment c) []) :
    cs = cs' :=
  List.map_injective_iff.2 (fun c c' hc => by simpa using hc) h

mutual

/-- An expression is found again from `Expr.sketch`. The constructor is seen from the heading,
and the operands follow from what is below. -/
theorem Expr.eq_of_sketch_eq : (e e' : Expr) → e.sketch = e'.sketch → e = e'
  | .symbol n, e', h => by
    cases e' with
    | symbol m => simpa [Expr.sketch] using h
    | _ => cases h
  | .literal v, e', h => by
    cases e' with
    | literal w => simpa [Expr.sketch] using h
    | _ => cases h
  | .grouping e, e', h => by
    cases e' with
    | grouping f =>
      simp only [Expr.sketch, Sketch.mk.injEq, List.cons.injEq, and_true, true_and] at h
      rw [e.eq_of_sketch_eq f h]
    | _ => cases h
  | .unary o e, e', h => by
    cases e' with
    | unary p f =>
      simp only [Expr.sketch, Sketch.mk.injEq, List.cons.injEq, and_true, Heading.unary.injEq] at h
      rw [h.1, e.eq_of_sketch_eq f h.2]
    | _ => cases h
  | .step o e, e', h => by
    cases e' with
    | step p f =>
      simp only [Expr.sketch, Sketch.mk.injEq, List.cons.injEq, and_true, Heading.step.injEq] at h
      rw [h.1, e.eq_of_sketch_eq f h.2]
    | _ => cases h
  | .binary o l r, e', h => by
    cases e' with
    | binary p l' r' =>
      simp only [Expr.sketch, Sketch.mk.injEq, List.cons.injEq, and_true, Heading.binary.injEq] at h
      rw [h.1, l.eq_of_sketch_eq l' h.2.1, r.eq_of_sketch_eq r' h.2.2]
    | _ => cases h
  | .ternary t y n, e', h => by
    cases e' with
    | ternary t' y' n' =>
      simp only [Expr.sketch, Sketch.mk.injEq, List.cons.injEq, and_true, true_and] at h
      rw [t.eq_of_sketch_eq t' h.1, y.eq_of_sketch_eq y' h.2.1, n.eq_of_sketch_eq n' h.2.2]
    | _ => cases h
  | .call c a, e', h => by
    cases e' with
    | call c' a' =>
      simp only [Expr.sketch, Sketch.mk.injEq, List.cons.injEq, and_true, true_and] at h
      rw [c.eq_of_sketch_eq c' h.1, a.eq_of_sketch_eq a' h.2]
    | _ => cases h
  | .index t i, e', h => by
    cases e' with
    | index t' i' =>
      simp only [Expr.sketch, Sketch.mk.injEq, List.cons.injEq, and_true, true_and] at h
      rw [t.eq_of_sketch_eq t' h.1, i.eq_of_sketch_eq i' h.2]
    | _ => cases h
  | .object es, e', h => by
    cases e' with
    | object fs =>
      simp only [Expr.sketch, Sketch.mk.injEq, true_and] at h
      rw [Entry.eq_of_sketches_eq es fs h]
    | _ => cases h
  | .list es comma, e', h => by
    cases e' with
    | list fs comma' =>
      simp only [Expr.sketch, Sketch.mk.injEq, Heading.list.injEq] at h
      rw [h.1, Expr.eq_of_sketches_eq es fs h.2]
    | _ => cases h
  | .array es, e', h => by
    cases e' with
    | array fs =>
      simp only [Expr.sketch, Sketch.mk.injEq, true_and] at h
      rw [Expr.eq_of_sketches_eq es fs h]
    | _ => cases h
  | .function n ps body, e', h => by
    cases e' with
    | function m qs body' =>
      simp only [Expr.sketch, Sketch.mk.injEq, Heading.function.injEq] at h
      rw [h.1.1, h.1.2, Declaration.eq_of_sketches_eq body body' h.2]
    | _ => cases h
  | .arrow ps e, e', h => by
    cases e' with
    | arrow qs f =>
      simp only [Expr.sketch, Sketch.mk.injEq, List.cons.injEq, and_true, Heading.arrow.injEq] at h
      rw [h.1, e.eq_of_sketch_eq f h.2]
    | _ => cases h
  | .arrowBlock ps body, e', h => by
    cases e' with
    | arrowBlock qs body' =>
      simp only [Expr.sketch, Sketch.mk.injEq, Heading.arrowBlock.injEq] at h
      rw [h.1, Declaration.eq_of_sketches_eq body body' h.2]
    | _ => cases h
termination_by structural e => e

/-- So are several expressions from `Expr.sketches`. -/
theorem Expr.eq_of_sketches_eq : (es fs : List Expr) →
    Expr.sketches es = Expr.sketches fs → es = fs
  | [], [], _ => rfl
  | e :: es, f :: fs, h => by
    simp only [Expr.sketches, List.cons.injEq] at h
    rw [e.eq_of_sketch_eq f h.1, Expr.eq_of_sketches_eq es fs h.2]
  | [], _ :: _, h => by simp [Expr.sketches] at h
  | _ :: _, [], h => by simp [Expr.sketches] at h
termination_by structural es => es

/-- So is an object entry: a `.shorthand` has nothing below its key and a `.pair` has its value. -/
theorem Entry.eq_of_sketch_eq : (e e' : Entry) → e.sketch = e'.sketch → e = e'
  | .shorthand j, e', h => by
    cases e' with
    | shorthand k => simpa [Entry.sketch] using h
    | pair k v => simp [Entry.sketch] at h
  | .pair j v, e', h => by
    cases e' with
    | shorthand k => simp [Entry.sketch] at h
    | pair k w =>
      simp only [Entry.sketch, Sketch.mk.injEq, List.cons.injEq, and_true, Heading.pair.injEq] at h
      rw [h.1, v.eq_of_sketch_eq w h.2]
termination_by structural e => e

theorem Entry.eq_of_sketches_eq : (es fs : List Entry) →
    Entry.sketches es = Entry.sketches fs → es = fs
  | [], [], _ => rfl
  | e :: es, f :: fs, h => by
    simp only [Entry.sketches, List.cons.injEq] at h
    rw [e.eq_of_sketch_eq f h.1, Entry.eq_of_sketches_eq es fs h.2]
  | [], _ :: _, h => by simp [Entry.sketches] at h
  | _ :: _, [], h => by simp [Entry.sketches] at h
termination_by structural es => es

/-- So is a statement. An expression as a statement has the heading of the expression, which
`Expr.heading_ne` tells from all others. -/
theorem Statement.eq_of_sketch_eq : (s s' : Statement) → s.sketch = s'.sketch → s = s'
  | .ifThen t body none, s', h => by
    have hh := s'.heading_sketch ▸ congrArg Sketch.heading h
    cases s' with
    | ifThen t' body' other =>
      cases other with
      | none =>
        simp only [Statement.sketch, Sketch.mk.injEq, List.cons.injEq, and_true, true_and] at h
        rw [t.eq_of_sketch_eq t' h.1, Declaration.eq_of_sketches_eq body body' h.2]
      -- the number of nodes below tells whether there is another branch
      | some other => simp [Statement.sketch] at h
    | expr e => exact absurd hh.symm (e.heading_ne rfl)
    | _ => cases hh
  | .ifThen t body (some o), s', h => by
    have hh := s'.heading_sketch ▸ congrArg Sketch.heading h
    cases s' with
    | ifThen t' body' other =>
      cases other with
      | none => simp [Statement.sketch] at h
      | some o' =>
        simp only [Statement.sketch, Sketch.mk.injEq, List.cons.injEq, and_true, true_and] at h
        rw [t.eq_of_sketch_eq t' h.1, Declaration.eq_of_sketches_eq body body' h.2.1,
          o.eq_of_sketch_eq o' h.2.2]
    | expr e => exact absurd hh.symm (e.heading_ne rfl)
    | _ => cases hh
  | .whileLoop t body, s', h => by
    have hh := s'.heading_sketch ▸ congrArg Sketch.heading h
    cases s' with
    | whileLoop t' body' =>
      simp only [Statement.sketch, Sketch.mk.injEq, List.cons.injEq, and_true, true_and] at h
      rw [t.eq_of_sketch_eq t' h.1, Declaration.eq_of_sketches_eq body body' h.2]
    | expr e => exact absurd hh.symm (e.heading_ne rfl)
    | _ => cases hh
  | .forLoop k ns c body b, s', h => by
    have hh := s'.heading_sketch ▸ congrArg Sketch.heading h
    cases s' with
    | forLoop k' ms c' body' b' =>
      simp only [Statement.sketch, Sketch.mk.injEq, List.cons.injEq, and_true, true_and,
        Heading.forLoop.injEq] at h
      obtain ⟨⟨rfl, rfl, rfl⟩, hc, hbody⟩ := h
      rw [c.eq_of_sketch_eq c' hc, Declaration.eq_of_sketches_eq body body' hbody]
    | expr e => exact absurd hh.symm (e.heading_ne rfl)
    | _ => cases hh
  | .throw e, s', h => by
    have hh := s'.heading_sketch ▸ congrArg Sketch.heading h
    cases s' with
    | throw f =>
      simp only [Statement.sketch, Sketch.mk.injEq, List.cons.injEq, and_true, true_and] at h
      rw [e.eq_of_sketch_eq f h]
    | expr e => exact absurd hh.symm (e.heading_ne rfl)
    | _ => cases hh
  | .ret none, s', h => by
    have hh := s'.heading_sketch ▸ congrArg Sketch.heading h
    cases s' with
    | ret value =>
      cases value with
      | none => rfl
      | some f => simp [Statement.sketch] at h
    | expr e => exact absurd hh.symm (e.heading_ne rfl)
    | _ => cases hh
  | .ret (some e), s', h => by
    have hh := s'.heading_sketch ▸ congrArg Sketch.heading h
    cases s' with
    | ret value =>
      cases value with
      | none => simp [Statement.sketch] at h
      | some f =>
        simp only [Statement.sketch, Sketch.mk.injEq, List.cons.injEq, and_true, true_and] at h
        rw [e.eq_of_sketch_eq f h]
    | expr e => exact absurd hh.symm (e.heading_ne rfl)
    | _ => cases hh
  | .expr e, s', h => by
    have hh := s'.heading_sketch ▸ congrArg Sketch.heading h
    cases s' with
    | expr f => rw [e.eq_of_sketch_eq f h]
    | _ => exact absurd hh (e.heading_ne rfl)
  | .block body, s', h => by
    have hh := s'.heading_sketch ▸ congrArg Sketch.heading h
    cases s' with
    | block body' =>
      simp only [Statement.sketch, Sketch.mk.injEq, true_and] at h
      rw [Declaration.eq_of_sketches_eq body body' h]
    | expr e => exact absurd hh.symm (e.heading_ne rfl)
    | _ => cases hh
termination_by structural s => s

/-- So is a declaration. A statement as a declaration is told from the others by
`Statement.heading_ne`. -/
theorem Declaration.eq_of_sketch_eq : (x x' : Declaration) → x.sketch = x'.sketch → x = x'
  | .function n ps body exported isAsync, x', h => by
    have hh := x'.heading_sketch ▸ congrArg Sketch.heading h
    cases x' with
    | function m qs body' exported' isAsync' =>
      simp only [Declaration.sketch, Sketch.mk.injEq, Heading.declared.injEq,
        Declared.function.injEq] at h
      obtain ⟨⟨rfl, rfl, rfl, rfl⟩, hbody⟩ := h
      rw [Declaration.eq_of_sketches_eq body body' hbody]
    -- a statement is not taken for a declaration, since their headings differ
    | statement s => exact absurd hh.symm (s.heading_ne rfl)
    | _ => cases hh
  | .var k n none exported, x', h => by
    have hh := x'.heading_sketch ▸ congrArg Sketch.heading h
    cases x' with
    | var k' m value exported' =>
      cases value with
      | none => simpa [Declaration.sketch, and_assoc, and_comm, and_left_comm] using h
      | some f => simp [Declaration.sketch] at h
    | statement s => exact absurd hh.symm (s.heading_ne rfl)
    | _ => cases hh
  | .var k n (some e) exported, x', h => by
    have hh := x'.heading_sketch ▸ congrArg Sketch.heading h
    cases x' with
    | var k' m value exported' =>
      cases value with
      | none => simp [Declaration.sketch] at h
      | some f =>
        simp only [Declaration.sketch, Sketch.mk.injEq, Heading.declared.injEq, Declared.var.injEq,
          List.cons.injEq, and_true] at h
        obtain ⟨⟨rfl, rfl, rfl⟩, hvalue⟩ := h
        rw [e.eq_of_sketch_eq f hvalue]
    | statement s => exact absurd hh.symm (s.heading_ne rfl)
    | _ => cases hh
  | .vars k ns e exported, x', h => by
    have hh := x'.heading_sketch ▸ congrArg Sketch.heading h
    cases x' with
    | vars k' ms f exported' =>
      simp only [Declaration.sketch, Sketch.mk.injEq, Heading.declared.injEq, Declared.vars.injEq,
        List.cons.injEq, and_true] at h
      obtain ⟨⟨rfl, rfl, rfl⟩, hvalue⟩ := h
      rw [e.eq_of_sketch_eq f hvalue]
    | statement s => exact absurd hh.symm (s.heading_ne rfl)
    | _ => cases hh
  | .statement s, x', h => by
    have hh := x'.heading_sketch ▸ s.heading_sketch ▸ congrArg Sketch.heading h
    cases x' with
    | statement s' => rw [s.eq_of_sketch_eq s' h]
    | _ => exact absurd hh (s.heading_ne rfl)
  | .comments cs, x', h => by
    have hh := x'.heading_sketch ▸ congrArg Sketch.heading h
    cases x' with
    | comments cs' =>
      simp only [Declaration.sketch, Sketch.mk.injEq, true_and] at h
      rw [eq_of_map_comment_eq h]
    | statement s => exact absurd hh.symm (s.heading_ne rfl)
    | _ => cases hh
termination_by structural x => x

/-- So is a block from `Declaration.sketches`. -/
theorem Declaration.eq_of_sketches_eq : (xs ys : List Declaration) →
    Declaration.sketches xs = Declaration.sketches ys → xs = ys
  | [], [], _ => rfl
  | x :: xs, y :: ys, h => by
    simp only [Declaration.sketches, List.cons.injEq] at h
    rw [x.eq_of_sketch_eq y h.1, Declaration.eq_of_sketches_eq xs ys h.2]
  | [], _ :: _, h => by simp [Declaration.sketches] at h
  | _ :: _, [], h => by simp [Declaration.sketches] at h
termination_by structural xs => xs

end

/-! ## Sketches keep the file -/

namespace Heading

/-- The comment that a heading is for. -/
def comment? : Heading → Option Comment
  | comment c => some c
  | _ => none

/-- The name of the module that a heading is for. -/
def moduleName? : Heading → Option String
  | moduleName name => some name
  | _ => none

/-- The import that a heading is for. -/
def imported? : Heading → Option Import
  | imported i => some i
  | _ => none

/-- The trailer that a heading is for. -/
def trailer? : Heading → Option String
  | trailer text => some text
  | _ => none

/-- No statement has a heading of `isOuter`. -/
theorem isOuter_of_isStatement {h : Heading} (hh : h.isStatement = true) : h.isOuter = false := by
  cases h <;> first | rfl | cases hh

end Heading

/-- Nor has any declaration. -/
theorem Declaration.isOuter_sketch (x : Declaration) : x.sketch.heading.isOuter = false := by
  rw [x.heading_sketch]
  cases x with
  | statement s => exact Heading.isOuter_of_isStatement s.isStatement_heading
  | _ => rfl

theorem Declaration.isOuter_sketches (xs : List Declaration) :
    ∀ s ∈ Declaration.sketches xs, s.heading.isOuter = false := by
  induction xs with
  | nil => exact nofun
  | cons x xs ih => simpa [Declaration.sketches, x.isOuter_sketch] using ih

namespace Program

/-- What stands in `Program.below` besides the body. -/
def outer (p : Program) : List Heading :=
  p.leading.map (fun c => .comment c) ++ p.moduleName.toList.map (fun name => .moduleName name)
    ++ p.imports.map (fun i => .imported i) ++ p.trailers.map (fun text => .trailer text)

/-- `Program.outer` is found in `Program.below` by its headings. -/
theorem outer_eq (p : Program) :
    (p.below.map Sketch.heading).filter Heading.isOuter = p.outer := by
  have hbody : ((Declaration.sketches p.body).map Sketch.heading).filter Heading.isOuter = [] := by
    simpa using Declaration.isOuter_sketches p.body
  simp only [below, outer, List.map_append, List.filter_append, hbody, List.append_nil]
  simp [List.filter_map, Function.comp_def, Sketch.heading, Heading.isOuter]

/-- So is the body, as what is left. -/
theorem sketches_body_eq (p : Program) :
    p.below.filter (fun s => !s.heading.isOuter) = Declaration.sketches p.body := by
  have hbody : (Declaration.sketches p.body).filter (fun s => !s.heading.isOuter) =
      Declaration.sketches p.body := by
    simpa using Declaration.isOuter_sketches p.body
  simp only [below, List.filter_append, hbody]
  simp [List.filter_map, Function.comp_def, Sketch.heading, Heading.isOuter]

/-- `Program.trailers` leaves out only the empty text, so the trailer is found from it. -/
theorem trailer_eq_of_trailers_eq {p q : Program} (h : p.trailers = q.trailers) :
    p.trailer = q.trailer := by
  have hhead (p : Program) : p.trailer = p.trailers.headD "" := by
    unfold trailers
    split <;> simp_all
  rw [hhead p, h, ← hhead q]

/-- A program is found again from `Program.sketch`. -/
theorem eq_of_sketch_eq {p q : Program} (h : p.sketch = q.sketch) : p = q := by
  have hbelow : p.below = q.below := by simpa [sketch] using h
  have houter : p.outer = q.outer := by rw [← p.outer_eq, hbelow, q.outer_eq]
  have hbody : p.body = q.body :=
    Declaration.eq_of_sketches_eq _ _ (by rw [← p.sketches_body_eq, hbelow, q.sketches_body_eq])
  -- each list of the file has headings of its own sort
  have hleading : p.leading = q.leading := by
    simpa [outer, Function.comp_def, Heading.comment?] using
      congrArg (List.filterMap Heading.comment?) houter
  have hmodule : p.moduleName = q.moduleName := by
    have hlist : p.moduleName.toList = q.moduleName.toList := by
      simpa [outer, Function.comp_def, Heading.moduleName?] using
        congrArg (List.filterMap Heading.moduleName?) houter
    simpa using congrArg List.head? hlist
  have himports : p.imports = q.imports := by
    simpa [outer, Function.comp_def, Heading.imported?] using
      congrArg (List.filterMap Heading.imported?) houter
  have htrailer : p.trailers = q.trailers := by
    simpa [outer, Function.comp_def, Heading.trailer?] using
      congrArg (List.filterMap Heading.trailer?) houter
  obtain ⟨leading, moduleName, imports, body, trailer⟩ := p
  obtain ⟨leading', moduleName', imports', body', trailer'⟩ := q
  obtain rfl : leading = leading' := hleading
  obtain rfl : imports = imports' := himports
  obtain rfl : body = body' := hbody
  obtain rfl : trailer = trailer' := trailer_eq_of_trailers_eq htrailer
  obtain rfl : moduleName = moduleName' := hmodule
  rfl

end Program

end Diglot

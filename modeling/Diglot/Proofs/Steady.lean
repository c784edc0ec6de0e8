import Diglot.Proofs.Settled

/-!
# What does not depend on the page

What a document writes can depend on the page in three ways: by the indentation, by whether a fresh
line has to end one before it, and by the column where a text may be wrapped. The document of an
expression begins no line before it has written something, and wraps nothing by its width, so only
the indentation counts for it.

- `Doc.Adds`: the text that a document adds to a page, and what stops it.
- `Doc.exists_adds`: every document adds a text, also one that is stopped.
- `Doc.marks`: a document that surely writes something.
- `Doc.steady`: a document in which nothing depends on the column, nor on whether something has been
  written before it.
- `Doc.exists_adds_of_steady`: such a document adds the same to any two pages.
- `Expr.steady_doc`, `Statement.steady_doc`, `Declaration.steady_doc`: the documents of trees.
-/

namespace Diglot

open Emitter

/-! ## What is added to a page -/

/-- Writing a document adds a text to a page, as `Wrote` says, and is then stopped by something
or by nothing. -/
structure Doc.Adds (d : Doc) (e : Emitter) (T : List Char) (stopped : Option Error) : Prop where
  wrote : e.Wrote T (d.run e).1
  position : (d.run e).1.position = e.position.advance T
  stopped : (d.run e).2 = stopped

namespace Doc

variable {a b d : Doc} {e : Emitter} {T T₁ T₂ : List Char} {stopped : Option Error}

/-- Only what `Doc.run` writes counts, not the document that writes it. -/
theorem Adds.of_run_eq (h : a.Adds e T stopped) (hrun : b.run e = a.run e) :
    b.Adds e T stopped :=
  ⟨hrun ▸ h.wrote, hrun ▸ h.position, hrun ▸ h.stopped⟩

theorem adds_empty (he : e.sink.limit = none) : empty.Adds e [] none :=
  ⟨wrote_nil he, rfl, rfl⟩

theorem adds_text (he : e.sink.limit = none) (s : String) : (text s).Adds e s.toList none where
  wrote := (emit_wrote he s).2
  position := by
    show (e.emit s).1.position = _
    rw [emit, Sink.write_of_limit_eq_none he]
  stopped := (emit_wrote he s).1

theorem adds_lineFeed (he : e.sink.limit = none) :
    lineFeed.Adds e (if e.written then ['\n'] else []) none := by
  cases hw : e.written with
  | true => exact (adds_text he "\n").of_run_eq (by simp [Doc.run, Emitter.lineFeed, hw])
  | false => exact (adds_empty he).of_run_eq (by simp [Doc.run, Emitter.lineFeed, hw])

/-- What a second document adds comes after what the first has added. -/
theorem Adds.append (ha : a.Adds e T₁ none) (hb : b.Adds (a.run e).1 T₂ stopped) :
    (a ++ b).Adds e (T₁ ++ T₂) stopped := by
  have hrun : (a ++ b).run e = b.run (a.run e).1 := andThen_of_none ha.stopped _
  exact {
    wrote := hrun ▸ ha.wrote.trans hb.wrote
    position := by rw [hrun, hb.position, ha.position, Position.advance_append]
    stopped := hrun ▸ hb.stopped }

/-- Nothing is added after what stops the writing. -/
theorem Adds.append_of_some {err : Error} (ha : a.Adds e T (some err)) (b : Doc) :
    (a ++ b).Adds e T (some err) := by
  refine ha.of_run_eq ?_
  show andThen (a.run e) b.run = a.run e
  have hstop := ha.stopped
  generalize a.run e = r at hstop
  obtain ⟨e', stopped⟩ := r
  obtain rfl : stopped = some err := hstop
  rfl

/-- `freshLine` is a line feed, if one is needed, and the indentation. -/
theorem adds_freshLine (he : e.sink.limit = none) :
    freshLine.Adds e ((if e.written then ['\n'] else []) ++ e.indent.toList) none := by
  have hfeed := adds_lineFeed he
  have hindent := adds_text hfeed.wrote.limit (lineFeed.run e).1.indent
  have hrun : freshLine.run e
      = (lineFeed ++ text (lineFeed.run e).1.indent).run e := by
    show andThen (lineFeed.run e) _ = andThen (lineFeed.run e) _
    rw [andThen_of_none hfeed.stopped, andThen_of_none hfeed.stopped]
    rfl
  rw [hfeed.wrote.indent] at hindent hrun
  exact (hfeed.append hindent).of_run_eq hrun

theorem Adds.indented {extra : String}
    (h : d.Adds { e with indent := e.indent ++ extra } T stopped) :
    (Doc.indented extra d).Adds e T stopped :=
  ⟨⟨h.wrote.sink, rfl, h.wrote.written⟩, h.position, h.stopped⟩

/-- Every document `Adds` a text to a page without a limit, and moves the position by it. -/
theorem exists_adds (d : Doc) (he : e.sink.limit = none) : ∃ T stopped, d.Adds e T stopped := by
  induction d generalizing e with
  | empty => exact ⟨_, _, adds_empty he⟩
  | text s => exact ⟨_, _, adds_text he s⟩
  | freshLine => exact ⟨_, _, adds_freshLine he⟩
  | lineFeed => exact ⟨_, _, adds_lineFeed he⟩
  | within width inline wrapped ih =>
    -- the column decides which of the two is written
    cases hpass : e.passes width inline with
    | true =>
      obtain ⟨T, stopped, hadds⟩ := ih he
      exact ⟨T, stopped, hadds.of_run_eq (by simp [Doc.run, hpass])⟩
    | false => exact ⟨_, _, (adds_text he inline).of_run_eq (by simp [Doc.run, hpass])⟩
  | indented extra d ih =>
    obtain ⟨T, stopped, hadds⟩ := ih (e := { e with indent := e.indent ++ extra }) he
    exact ⟨T, stopped, hadds.indented⟩
  | seq a b iha ihb =>
    obtain ⟨T₁, stopped, ha⟩ := iha he
    cases stopped with
    | none =>
      obtain ⟨T₂, stopped, hb⟩ := ihb ha.wrote.limit
      exact ⟨_, _, ha.append hb⟩
    | some err => exact ⟨_, _, ha.append_of_some b⟩
  | fault defect => exact ⟨[], _, wrote_nil he, rfl, rfl⟩

/-! ## Steady documents -/

/-- Whether a document surely writes something, unless a `Doc.fault` stops it. -/
def marks : Doc → Bool
  | .text s => !s.isEmpty
  | .within _ inline wrapped => !inline.isEmpty && wrapped.marks
  | .indented _ d => d.marks
  | .seq a b => a.marks || b.marks
  | .fault _ => true
  | .empty | .freshLine | .lineFeed => false

/-- Whether nothing in a document depends on the column, nor on whether something has been
written before the document. It is allowed to depend on the latter where that is `known`, as it
is after something that `marks` the page. -/
def steady (known : Bool) : Doc → Bool
  | .empty | .text _ | .fault _ => true
  | .freshLine | .lineFeed => known
  | .within .. => false
  | .indented _ d => d.steady known
  | .seq a b => a.steady known && b.steady (known || a.marks)

/-- A document that is `steady` with nothing known is so with anything known. -/
theorem steady_mono {known : Bool} (h : d.steady false = true) : d.steady known = true := by
  cases known with
  | false => exact h
  | true =>
    induction d with
    | freshLine | lineFeed => rfl
    | indented extra d ih => exact ih h
    | seq a b iha ihb =>
      simp only [steady, Bool.and_eq_true, Bool.false_or] at h
      have hb : b.steady true = true := by
        cases hmarks : a.marks with
        | true => exact hmarks ▸ h.2
        | false => exact ihb (hmarks ▸ h.2)
      simp [steady, iha h.1, hb]
    | _ => exact h

/-- A document `Adds` one text to a page. -/
theorem Adds.unique {T' : List Char} {stopped' : Option Error} (h : d.Adds e T stopped)
    (h' : d.Adds e T' stopped') : T = T' ∧ stopped = stopped' := by
  refine ⟨?_, h.stopped.symm.trans h'.stopped⟩
  have hsink := congrArg Sink.text (h.wrote.sink.symm.trans h'.wrote.sink)
  simpa using congrArg String.toList hsink

/-- What `marks` a page adds a text that is not empty. -/
theorem Adds.ne_nil (h : d.Adds e T none) (hd : d.marks = true) (he : e.sink.limit = none) :
    T ≠ [] := by
  induction d generalizing e T with
  | text s =>
    obtain ⟨rfl, -⟩ := h.unique (adds_text he s)
    simpa [marks] using hd
  | within width inline wrapped ih =>
    rw [marks, Bool.and_eq_true] at hd
    cases hpass : e.passes width inline with
    | true => exact ih (h.of_run_eq (by simp [Doc.run, hpass])) hd.2 he
    | false =>
      obtain ⟨rfl, -⟩ := (h.of_run_eq (b := text inline) (by simp [Doc.run, hpass])).unique
        (adds_text he inline)
      simpa using hd.1
  | indented extra d ih =>
    exact ih (e := { e with indent := e.indent ++ extra })
      ⟨⟨h.wrote.sink, d.indent_run _, h.wrote.written⟩, h.position, h.stopped⟩ hd he
  -- what stops the first part would stop the whole, so both run to their end
  | seq a b iha ihb =>
    obtain ⟨T₁, stopped, ha⟩ := a.exists_adds he
    cases stopped with
    | some err => cases (h.unique (ha.append_of_some b)).2
    | none =>
      obtain ⟨T₂, stopped, hb⟩ := b.exists_adds ha.wrote.limit
      obtain ⟨rfl, rfl⟩ := h.unique (ha.append hb)
      rw [marks, Bool.or_eq_true] at hd
      rcases hd with hd | hd
      · exact List.append_ne_nil_of_left_ne_nil (iha ha hd he) _
      · exact List.append_ne_nil_of_right_ne_nil _ (ihb hb hd ha.wrote.limit)
  | fault defect => cases h.stopped
  | empty | freshLine | lineFeed => cases hd

/-- **A steady document adds the same to any two pages** with the same indentation, if they agree on
whether something has been written where that is known. -/
theorem exists_adds_of_steady {known : Bool} {e₁ e₂ : Emitter} (hd : d.steady known = true)
    (h₁ : e₁.sink.limit = none) (h₂ : e₂.sink.limit = none) (hindent : e₁.indent = e₂.indent)
    (hknown : known = true → e₁.written = e₂.written) :
    ∃ T stopped, d.Adds e₁ T stopped ∧ d.Adds e₂ T stopped := by
  induction d generalizing known e₁ e₂ with
  | empty => exact ⟨_, _, adds_empty h₁, adds_empty h₂⟩
  | text s => exact ⟨_, _, adds_text h₁ s, adds_text h₂ s⟩
  | freshLine =>
    refine ⟨_, _, adds_freshLine h₁, ?_⟩
    rw [hknown hd, hindent]
    exact adds_freshLine h₂
  | lineFeed =>
    refine ⟨_, _, adds_lineFeed h₁, ?_⟩
    rw [hknown hd]
    exact adds_lineFeed h₂
  | within width inline wrapped ih => cases hd
  | indented extra d ih =>
    obtain ⟨T, stopped, hadds₁, hadds₂⟩ := @ih known { e₁ with indent := e₁.indent ++ extra }
      { e₂ with indent := e₂.indent ++ extra } hd h₁ h₂ (by rw [hindent]) hknown
    exact ⟨T, stopped, hadds₁.indented, hadds₂.indented⟩
  | seq a b iha ihb =>
    simp only [steady, Bool.and_eq_true] at hd
    obtain ⟨T, stopped, ha₁, ha₂⟩ := iha hd.1 h₁ h₂ hindent hknown
    cases stopped with
    | some err => exact ⟨T, _, ha₁.append_of_some b, ha₂.append_of_some b⟩
    | none =>
      -- after what marks the page it is known that something has been written
      have hknown' : (known || a.marks) = true →
          (a.run e₁).1.written = (a.run e₂).1.written := by
        intro h
        rw [ha₁.wrote.written, ha₂.wrote.written]
        rw [Bool.or_eq_true] at h
        rcases h with h | h
        · rw [hknown h]
        · have hmarked : T.isEmpty = false := by simpa using ha₁.ne_nil h h₁
          simp [hmarked]
      have hindent' : (a.run e₁).1.indent = (a.run e₂).1.indent := by
        rw [ha₁.wrote.indent, ha₂.wrote.indent, hindent]
      obtain ⟨T', stopped, hb₁, hb₂⟩ :=
        ihb hd.2 ha₁.wrote.limit ha₂.wrote.limit hindent' hknown'
      exact ⟨T ++ T', stopped, ha₁.append hb₁, ha₂.append hb₂⟩
  | fault defect =>
    exact ⟨[], _, ⟨wrote_nil h₁, rfl, rfl⟩, ⟨wrote_nil h₂, rfl, rfl⟩⟩

/-! ## Documents in a row -/

section Rows

variable {known : Bool} {ds : List Doc}

@[simp] theorem steady_text (s : String) : (text s).steady known = true :=
  rfl

@[simp] theorem steady_empty : empty.steady known = true :=
  rfl

@[simp] theorem steady_fault (defect : Defect) : (fault defect).steady known = true :=
  rfl

@[simp] theorem steady_freshLine : freshLine.steady known = known :=
  rfl

@[simp] theorem steady_lineFeed : lineFeed.steady known = known :=
  rfl

@[simp] theorem steady_indented (extra : String) :
    (indented extra d).steady known = d.steady known :=
  rfl

@[simp] theorem steady_append :
    (a ++ b).steady known = (a.steady known && b.steady (known || a.marks)) :=
  rfl

@[simp] theorem steady_when (condition : Bool) (s : String) :
    (when condition s).steady known = true := by
  cases condition <;> rfl

@[simp] theorem marks_text (s : String) : (text s).marks = !decide (s = "") := by
  rw [marks, Bool.eq_iff_iff]
  simp

@[simp] theorem marks_append : (a ++ b).marks = (a.marks || b.marks) :=
  rfl

theorem steady_fitted (h : d.steady false = true) (required : Precedence) (e : Expr) :
    (e.fitted required d).steady known = true := by
  unfold Expr.fitted
  split
  · simp [steady_mono h]
  · exact steady_mono h

/-- Documents that are `steady` are so in a row. -/
theorem steady_join (h : ∀ d ∈ ds, d.steady false = true) (separator : String) :
    (join separator ds).steady known = true := by
  fun_induction join separator ds generalizing known with
  | case1 => rfl
  | case2 d => exact steady_mono (h d (List.mem_singleton_self d))
  | case3 d ds _ ih =>
    rw [List.forall_mem_cons] at h
    simp [steady_mono h.1, ih h.2]

theorem steady_commaLines (h : ∀ d ∈ ds, d.steady false = true) :
    (commaLines ds).steady true = true := by
  induction ds with
  | nil => rfl
  | cons d ds ih =>
    rw [List.forall_mem_cons] at h
    simp [commaLines, steady_mono h.1, ih h.2]

/-- Items between brackets begin new lines only after the bracket, so `Doc.laidOut` is `steady`. -/
theorem steady_laidOut (h : ∀ d ∈ ds, d.steady false = true) {opening : String}
    (hopening : opening ≠ "") (closing : String) :
    (laidOut opening closing ds).steady known = true := by
  match ds, h with
  | [], _ => simp [laidOut]
  | [d], h => simp [laidOut, steady_mono (h d (List.mem_singleton_self d))]
  | d :: d' :: ds, h =>
    rw [List.forall_mem_cons] at h
    simp [laidOut, hopening, steady_mono h.1, steady_commaLines h.2]

end Rows

end Doc

/-! ## Parts without subtrees -/

section Parts

open Doc Print

variable {known : Bool} {test body : Doc}

@[simp] theorem Dialect.surface_blockOpen_ne_empty (d : Dialect) : d.surface.blockOpen ≠ "" := by
  cases d <;> decide

@[simp] theorem Dialect.surface_functionWord_ne_empty (d : Dialect) :
    d.surface.functionWord ≠ "" := by
  cases d <;> decide

namespace Print

@[simp] theorem steady_signature (params : List String) :
    (signature params).steady known = true := by
  simp [signature, names]

@[simp] theorem steady_arrowHead (params : List String) :
    (arrowHead params).steady known = true := by
  simp [arrowHead, names]

/-- The mark that opens a block is written before its lines, so nothing has to be known. -/
theorem steady_block (h : body.steady true = true) (d : Dialect) :
    (block d.surface body).steady known = true := by
  simp [block, h]

/-- So is the word of a branch. -/
theorem steady_branch (ht : test.steady false = true) (hb : body.steady true = true) (d : Dialect)
    (further : Bool) : (branch d.surface further test body).steady false = true := by
  have hword : (if further = true then "elsif" else "if") ≠ "" := by cases further <;> decide
  unfold branch
  split
  · simp [header, steady_mono ht, steady_block hb]
  · simp [steady_mono ht, hword, hb]

theorem marks_branch (s : Surface) (further : Bool) (test body : Doc) :
    (branch s further test body).marks = true := by
  have hword : (if further = true then "elsif" else "if") ≠ "" := by cases further <;> decide
  unfold branch
  split <;> simp [hword]

theorem steady_elseBlock (h : body.steady true = true) (d : Dialect) :
    (elseBlock d.surface body).steady true = true := by
  unfold elseBlock
  split
  · simp [steady_block h]
  · simp [h]

@[simp] theorem steady_beforeElsif (s : Surface) : (beforeElsif s).steady true = true := by
  unfold beforeElsif
  split <;> rfl

@[simp] theorem steady_conditionalEnd (s : Surface) (further : Bool) :
    (conditionalEnd s further).steady true = true := by
  unfold conditionalEnd
  split <;> simp

@[simp] theorem steady_comments (cs : List Comment) : (comments cs).steady true = true := by
  induction cs with
  | nil => rfl
  | cons c cs ih => simp [comments, ih]

end Print

end Parts

/-! ## Trees -/

section Trees

open Doc Print

variable (d : Dialect)

mutual

/-- The document of an expression is `steady`: it depends on the page by its indentation only. -/
theorem Expr.steady_doc : ∀ e : Expr, (e.doc d.surface).steady false = true
  | .symbol _ | .literal _ => rfl
  | .grouping inner => by simp [Expr.doc, steady_mono inner.steady_doc]
  | .unary op operand => by
    have ih := operand.steady_doc
    cases op with
    | new =>
      simp only [Expr.doc]
      split
      · simp [steady_fitted ih]
      · rfl
    | _ => simp [Expr.doc, UnaryOp.gap, steady_fitted ih]
  | .step op operand => by simp [Expr.doc, steady_fitted operand.steady_doc]
  -- `new` and the dot may be faults, which are steady whatever stands in them
  | .binary op left right => by
    have ihl := left.steady_doc
    have ihr := right.steady_doc
    cases op with
    | new =>
      simp only [Expr.doc]
      split
      · rfl
      · split
        · rfl
        · simp [steady_fitted ihl, steady_mono ihr]
    | dot =>
      simp only [Expr.doc]
      split
      · simp [steady_fitted ihl]
      · rfl
    | _ => simp [Expr.doc, BinaryOp.infixText, steady_fitted ihl, steady_fitted ihr]
  | .ternary test yes no => by
    simp [Expr.doc, steady_fitted test.steady_doc, steady_fitted yes.steady_doc,
      steady_fitted no.steady_doc]
  | .call callee arguments => by
    simp only [Expr.doc]
    split
    · simp [steady_fitted callee.steady_doc, steady_mono arguments.steady_doc]
    · rfl
  | .index target position => by
    simp [Expr.doc, steady_fitted target.steady_doc, steady_mono position.steady_doc]
  | .object es => steady_laidOut (Entry.steady_docs es) (by decide) _
  | .array es => steady_laidOut (Expr.steady_docs es) (by decide) _
  | .list es comma => by simp [Expr.doc, steady_join (Expr.steady_docs es)]
  | .function name params body => by
    cases name <;> simp [Expr.doc, steady_block (Declaration.steady_docs body)]
  | .arrow params body => by
    simp only [Expr.doc, steady_append, steady_arrowHead, Bool.true_and]
    split
    · simp [steady_mono body.steady_doc]
    · exact steady_fitted body.steady_doc _ _
  | .arrowBlock params body => by
    simp [Expr.doc, steady_block (Declaration.steady_docs body)]

theorem Expr.steady_docs : ∀ es : List Expr, ∀ doc ∈ Expr.docs d.surface es,
    doc.steady false = true
  | [] => nofun
  | e :: es => List.forall_mem_cons.2 ⟨steady_fitted e.steady_doc _ _, Expr.steady_docs es⟩

theorem Entry.steady_docs : ∀ es : List Entry, ∀ doc ∈ Entry.docs d.surface es,
    doc.steady false = true
  | [] => nofun
  | .shorthand key :: es => List.forall_mem_cons.2 ⟨rfl, Entry.steady_docs es⟩
  | .pair key value :: es =>
    List.forall_mem_cons.2 ⟨by simp [Entry.doc, steady_fitted value.steady_doc],
      Entry.steady_docs es⟩

/-- So is that of a statement, whose first word comes before any line break. -/
theorem Statement.steady_doc : ∀ (st : Statement) (further : Bool),
    (st.doc d.surface further).steady false = true
  | .ifThen test body none, further => by
    have hbranch :=
      steady_branch (steady_mono test.steady_doc) (Declaration.steady_docs body) d further
    simp [Statement.doc, hbranch, marks_branch]
  | .ifThen test body (some (.block other)), further => by
    have hbranch :=
      steady_branch (steady_mono test.steady_doc) (Declaration.steady_docs body) d further
    simp [Statement.doc, hbranch, marks_branch, steady_elseBlock (Declaration.steady_docs other)]
  | .ifThen test body (some (.ifThen t b o)), further => by
    have hbranch :=
      steady_branch (steady_mono test.steady_doc) (Declaration.steady_docs body) d further
    have hother := Statement.steady_doc (.ifThen t b o) true
    simp [Statement.doc, hbranch, marks_branch, steady_mono hother]
  | .ifThen test body (some (.whileLoop ..)), further
  | .ifThen test body (some (.forLoop ..)), further
  | .ifThen test body (some (.throw _)), further
  | .ifThen test body (some (.ret _)), further
  | .ifThen test body (some (.expr _)), further => by
    have hbranch :=
      steady_branch (steady_mono test.steady_doc) (Declaration.steady_docs body) d further
    simp [Statement.doc, hbranch]
  | .whileLoop test body, _ => by
    simp [Statement.doc, header, steady_mono test.steady_doc,
      steady_block (Declaration.steady_docs body)]
  | .forLoop keyword names collection body bracketed, _ => by
    cases keyword <;> cases bracketed <;>
      simp [Statement.doc, Print.names, steady_mono collection.steady_doc,
        steady_block (Declaration.steady_docs body)]
  | .throw value, _ => by simp [Statement.doc, steady_mono value.steady_doc]
  | .ret none, _ => rfl
  | .ret (some value), _ => by simp [Statement.doc, steady_mono value.steady_doc]
  | .expr value, _ => by
    simp only [Statement.doc, steady_append, steady_text, Bool.and_true]
    split
    · simp [steady_mono value.steady_doc]
    · simp [value.steady_doc]
  | .block body, _ => steady_block (Declaration.steady_docs body) d

/-- That of a declaration depends on the page by its indentation and by whether something has
been written before, since it begins on a fresh line. -/
theorem Declaration.steady_doc : ∀ x : Declaration, (x.doc d.surface).steady true = true
  | .function name params body exported isAsync => by
    simp [Declaration.doc, exportWord, steady_block (Declaration.steady_docs body)]
  | .var keyword name none exported => by simp [Declaration.doc, exportWord]
  | .var keyword name (some value) exported | .vars keyword names value exported => by
    simp [Declaration.doc, exportWord, Print.names, steady_fitted value.steady_doc]
  | .statement st => by simp [Declaration.doc, steady_mono (st.steady_doc false)]
  | .comments cs => steady_comments cs

/-- So does that of a block. -/
theorem Declaration.steady_docs : ∀ xs : List Declaration,
    (Declaration.docs d.surface xs).steady true = true
  | [] => rfl
  | x :: xs => by simp [Declaration.docs, x.steady_doc, Declaration.steady_docs xs]

end

end Trees

end Diglot

import Diglot.Proofs.Nodes
import Diglot.Proofs.Writing
import Diglot.Tree.Build

/-!
# Which trees can be printed

Printing a tree that was put together by hand stops at the first rule of trees that it breaks. Which
one this is, is told by the tree alone: the two dialects write different words, in different places,
but look at the parts of a tree in the same order. So a tree is printed in both dialects or in none,
and in the latter case both give the same defect.

- `Expr.defect?`, `Statement.defect?`, `Declaration.defect?`, `Program.defect?`: the first rule that
  is broken, in the order of printing.
- `Node.Printable`: what the rules ask of a single node; `Program.defect?_eq_none_iff` says that
  none is broken exactly if every node is so.
- `Doc.Stops`: a document holds a fault, or none, wherever it stands.
- `Expr.stops_doc`, `Statement.stops_doc`, `Declaration.stops_doc`: the document of a tree stops, in
  every surface, at the first defect of the tree.
- `exists_printExpr_iff`, `exists_printProgram_iff`: which trees are printed.
-/

namespace Diglot

/-! ## Defects -/

/-- The `Defect` that a checked constructor finds. -/
def refusal? {α : Type} : Except Defect α → Option Defect
  | .ok _ => none
  | .error defect => some defect

/-- Whether a statement may follow `else`: a conditional or a block. -/
def Statement.isBranch : Statement → Bool
  | .ifThen .. | .block _ => true
  | _ => false

mutual

/-- The first rule that an expression breaks. A node is looked at before its parts, by the rules
of `Expr.unary?`, `Expr.binary?` and `Expr.call?`. -/
def Expr.defect? : Expr → Option Defect
  | .symbol _ | .literal _ => none
  | .grouping inner => inner.defect?
  | .unary op operand => (refusal? (Expr.unary? op operand)).or operand.defect?
  | .step _ operand => operand.defect?
  | .binary op left right =>
    (refusal? (Expr.binary? op left right)).or (left.defect?.or right.defect?)
  | .ternary test yes no => (test.defect?.or yes.defect?).or no.defect?
  | .call callee arguments =>
    (refusal? (Expr.call? callee arguments)).or (callee.defect?.or arguments.defect?)
  | .index target position => target.defect?.or position.defect?
  | .object es => Entry.defectIn? es
  | .list es _ | .array es => Expr.defectIn? es
  | .function _ _ body | .arrowBlock _ body => Declaration.defectIn? body
  | .arrow _ body => body.defect?

/-- The first rule that is broken in some expressions. -/
def Expr.defectIn? : List Expr → Option Defect
  | [] => none
  | e :: es => e.defect?.or (Expr.defectIn? es)

/-- The first rule that is broken in some object entries. -/
def Entry.defectIn? : List Entry → Option Defect
  | [] => none
  | .shorthand _ :: es => Entry.defectIn? es
  | .pair _ value :: es => value.defect?.or (Entry.defectIn? es)

/-- The first rule that a statement breaks. What follows `else` is looked at only after the
branch before it, and has to be an `isBranch`. -/
def Statement.defect? : Statement → Option Defect
  | .ifThen test body none => test.defect?.or (Declaration.defectIn? body)
  | .ifThen test body (some other) =>
    (test.defect?.or (Declaration.defectIn? body)).or
      (if other.isBranch then other.defect? else some .elseBranch)
  | .whileLoop test body => test.defect?.or (Declaration.defectIn? body)
  | .forLoop _ _ collection body _ => collection.defect?.or (Declaration.defectIn? body)
  | .throw value | .ret (some value) | .expr value => value.defect?
  | .ret none => none
  | .block body => Declaration.defectIn? body

/-- The first rule that a declaration breaks. -/
def Declaration.defect? : Declaration → Option Defect
  | .function _ _ body _ _ => Declaration.defectIn? body
  | .var _ _ none _ | .comments _ => none
  | .var _ _ (some value) _ | .vars _ _ value _ => value.defect?
  | .statement st => st.defect?

/-- The first rule that is broken in some declarations. -/
def Declaration.defectIn? : List Declaration → Option Defect
  | [] => none
  | x :: xs => x.defect?.or (Declaration.defectIn? xs)

end

/-- The first rule that a program breaks, in its body. -/
def Program.defect? (p : Program) : Option Defect :=
  Declaration.defectIn? p.body

/-! ## Printable nodes -/

/-- What the rules of trees ask of a node: `new` stands before a name path, arguments are a list, a
name follows a point, and what follows `else` is a conditional or a block. -/
def Node.Printable : Node → Prop
  | .expr (.unary .new target) => target.isSymbolPath = true
  | .expr (.binary .new target arguments) =>
    target.isSymbolPath = true ∧ arguments.isList = true
  | .expr (.binary .dot _ member) => member.isSymbol = true
  | .expr (.call _ arguments) => arguments.isList = true
  | .statement (.ifThen _ _ (some other)) => other.isBranch = true
  | _ => True

/-! ### Checked constructors -/

/-- `Expr.unary?` builds its node exactly if the node is `Node.Printable`. -/
theorem Expr.unary?_eq_ok_iff {op : UnaryOp} {operand e : Expr} :
    Expr.unary? op operand = .ok e ↔
      Node.Printable (.expr (.unary op operand)) ∧ .unary op operand = e := by
  cases op <;> cases hpath : operand.isSymbolPath <;>
    simp [Expr.unary?, Node.Printable, hpath]

/-- So does `Expr.binary?`. -/
theorem Expr.binary?_eq_ok_iff {op : BinaryOp} {left right e : Expr} :
    Expr.binary? op left right = .ok e ↔
      Node.Printable (.expr (.binary op left right)) ∧ .binary op left right = e := by
  cases op with
  | new =>
    cases hpath : left.isSymbolPath <;> cases hlist : right.isList <;>
      simp [Expr.binary?, Node.Printable, hpath, hlist]
  | dot => cases hname : right.isSymbol <;> simp [Expr.binary?, Node.Printable, hname]
  | _ => simp [Expr.binary?, Node.Printable]

/-- So does `Expr.call?`. -/
theorem Expr.call?_eq_ok_iff {callee arguments e : Expr} :
    Expr.call? callee arguments = .ok e ↔
      Node.Printable (.expr (.call callee arguments)) ∧ .call callee arguments = e := by
  cases hlist : arguments.isList <;> simp [Expr.call?, Node.Printable, hlist]

theorem refusal?_eq_none_iff {α : Type} {built : Except Defect α} :
    refusal? built = none ↔ ∃ a, built = .ok a := by
  cases built <;> simp [refusal?]

/-! ### Trees without defects -/

/-- A name breaks no rule. -/
theorem Expr.defect?_of_isSymbol {e : Expr} (h : e.isSymbol = true) : e.defect? = none := by
  cases e with
  | symbol name => simp [Expr.defect?]
  | _ => cases h

mutual

/-- An expression breaks no rule exactly if each of its nodes is `Node.Printable`. -/
theorem Expr.defect?_eq_none_iff : ∀ e : Expr, e.defect? = none ↔ AllNodes Node.Printable e.nodes
  | .symbol _ | .literal _ => by simp [Expr.defect?, Expr.nodes, Node.Printable]
  | .grouping inner => by
    simp [Expr.defect?, Expr.nodes, Node.Printable, inner.defect?_eq_none_iff]
  | .unary op operand => by
    simp [Expr.defect?, Expr.nodes, refusal?_eq_none_iff, Expr.unary?_eq_ok_iff,
      operand.defect?_eq_none_iff]
  | .step op operand => by
    simp [Expr.defect?, Expr.nodes, Node.Printable, operand.defect?_eq_none_iff]
  | .binary op left right => by
    have hnode : refusal? (Expr.binary? op left right) = none ↔
        Node.Printable (.expr (.binary op left right)) := by
      simp [refusal?_eq_none_iff, Expr.binary?_eq_ok_iff]
    rw [Expr.defect?, Expr.nodes, Option.or_eq_none_iff, Option.or_eq_none_iff, hnode,
      allNodes_cons, allNodes_append, left.defect?_eq_none_iff]
    by_cases hdot : op = .dot
    · -- what follows a point is no node, and breaks no rule if it is a name
      subst hdot
      have hname : Node.Printable (.expr (.binary .dot left right)) → right.defect? = none :=
        Expr.defect?_of_isSymbol
      simpa using fun hnode _ => hname hnode
    · rw [if_neg hdot, right.defect?_eq_none_iff]
  | .ternary test yes no => by
    simp [Expr.defect?, Expr.nodes, Node.Printable, test.defect?_eq_none_iff,
      yes.defect?_eq_none_iff, no.defect?_eq_none_iff, and_assoc]
  | .call callee arguments => by
    simp [Expr.defect?, Expr.nodes, refusal?_eq_none_iff, Expr.call?_eq_ok_iff,
      callee.defect?_eq_none_iff, arguments.defect?_eq_none_iff]
  | .index target position => by
    simp [Expr.defect?, Expr.nodes, Node.Printable, target.defect?_eq_none_iff,
      position.defect?_eq_none_iff]
  | .object es => by
    simp [Expr.defect?, Expr.nodes, Node.Printable, Entry.defectIn?_eq_none_iff es]
  | .list es _ | .array es => by
    simp [Expr.defect?, Expr.nodes, Node.Printable, Expr.defectIn?_eq_none_iff es]
  | .function _ _ body | .arrowBlock _ body => by
    simp [Expr.defect?, Expr.nodes, Node.Printable, Declaration.defectIn?_eq_none_iff body]
  | .arrow _ body => by
    simp [Expr.defect?, Expr.nodes, Node.Printable, body.defect?_eq_none_iff]

theorem Expr.defectIn?_eq_none_iff : ∀ es : List Expr,
    Expr.defectIn? es = none ↔ AllNodes Node.Printable (Expr.nodesOf es)
  | [] => by simp [Expr.defectIn?, Expr.nodesOf]
  | e :: es => by
    simp [Expr.defectIn?, Expr.nodesOf, e.defect?_eq_none_iff, Expr.defectIn?_eq_none_iff es]

/-- So do object entries, of which the keys break no rule. -/
theorem Entry.defectIn?_eq_none_iff : ∀ es : List Entry,
    Entry.defectIn? es = none ↔ AllNodes Node.Printable (Entry.nodesOf es)
  | [] => by simp [Entry.defectIn?, Entry.nodesOf]
  | .shorthand _ :: es => by
    simp [Entry.defectIn?, Entry.nodesOf, Entry.nodes, Node.Printable,
      Entry.defectIn?_eq_none_iff es]
  | .pair _ value :: es => by
    simp [Entry.defectIn?, Entry.nodesOf, Entry.nodes, Node.Printable,
      value.defect?_eq_none_iff, Entry.defectIn?_eq_none_iff es]

/-- So does a statement. -/
theorem Statement.defect?_eq_none_iff : ∀ st : Statement,
    st.defect? = none ↔ AllNodes Node.Printable st.nodes
  | .ifThen test body none | .whileLoop test body => by
    simp [Statement.defect?, Statement.nodes, Node.Printable, test.defect?_eq_none_iff,
      Declaration.defectIn?_eq_none_iff body]
  | .ifThen test body (some other) => by
    -- whether the other branch may stand there is asked of the conditional, the rest of the
    -- branch
    cases hbranch : other.isBranch <;>
      simp [Statement.defect?, Statement.nodes, Node.Printable, test.defect?_eq_none_iff,
        Declaration.defectIn?_eq_none_iff body, other.defect?_eq_none_iff, hbranch, and_assoc]
  | .forLoop _ _ collection body _ => by
    simp [Statement.defect?, Statement.nodes, Node.Printable, collection.defect?_eq_none_iff,
      Declaration.defectIn?_eq_none_iff body]
  | .throw value | .ret (some value) | .expr value => by
    simp [Statement.defect?, Statement.nodes, Node.Printable, value.defect?_eq_none_iff]
  | .ret none => by simp [Statement.defect?, Statement.nodes, Node.Printable]
  | .block body => by
    simp [Statement.defect?, Statement.nodes, Node.Printable,
      Declaration.defectIn?_eq_none_iff body]

/-- So does a declaration. -/
theorem Declaration.defect?_eq_none_iff : ∀ x : Declaration,
    x.defect? = none ↔ AllNodes Node.Printable x.nodes
  | .function _ _ body _ _ => by
    simp [Declaration.defect?, Declaration.nodes, Node.Printable,
      Declaration.defectIn?_eq_none_iff body]
  | .var _ _ none _ | .comments _ => by
    simp [Declaration.defect?, Declaration.nodes, Node.Printable]
  | .var _ _ (some value) _ | .vars _ _ value _ => by
    simp [Declaration.defect?, Declaration.nodes, Node.Printable, value.defect?_eq_none_iff]
  | .statement st => by
    simp [Declaration.defect?, Declaration.nodes, Node.Printable, st.defect?_eq_none_iff]

theorem Declaration.defectIn?_eq_none_iff : ∀ xs : List Declaration,
    Declaration.defectIn? xs = none ↔ AllNodes Node.Printable (Declaration.nodesOf xs)
  | [] => by simp [Declaration.defectIn?, Declaration.nodesOf]
  | x :: xs => by
    simp [Declaration.defectIn?, Declaration.nodesOf, x.defect?_eq_none_iff,
      Declaration.defectIn?_eq_none_iff xs]

end

/-- A program breaks no rule exactly if each of its nodes is `Node.Printable`. -/
theorem Program.defect?_eq_none_iff (p : Program) :
    p.defect? = none ↔ AllNodes Node.Printable p.nodes :=
  Declaration.defectIn?_eq_none_iff p.body

/-! ## Documents that stop -/

namespace Doc

/-- A document that stops at a `Doc.fault`, or at none: the first one in it counts, and none may
depend on how wide a line is. -/
def Stops : Doc → Option Defect → Prop
  | .within _ _ wrapped, defect => wrapped.Stops none ∧ defect = none
  | .indented _ d, defect => d.Stops defect
  | .seq a b, defect => ∃ f g, a.Stops f ∧ b.Stops g ∧ defect = f.or g
  | .fault f, defect => defect = some f
  | .empty, defect | .text _, defect | .freshLine, defect | .lineFeed, defect => defect = none

open Emitter in
/-- On a page that takes everything, only the fault at which a document `Stops` ends the
writing. -/
theorem Stops.run {d : Doc} {defect : Option Defect} (h : d.Stops defect) {e : Emitter}
    (he : e.sink.limit = none) : (d.run e).2 = defect.map .tree := by
  induction d generalizing e defect with
  | empty =>
    obtain rfl : defect = none := h
    rfl
  | text s =>
    obtain rfl : defect = none := h
    exact (emit_wrote he s).1
  | freshLine =>
    obtain rfl : defect = none := h
    exact (run_of_faultless rfl he).1
  | lineFeed =>
    obtain rfl : defect = none := h
    exact (lineFeed_wrote he).1
  | within width inline wrapped ih =>
    obtain ⟨hwrapped, rfl⟩ := h
    unfold Doc.run
    split
    · exact ih hwrapped he
    · exact (emit_wrote he inline).1
  | indented extra d ih => exact ih h he
  | seq a b iha ihb =>
    obtain ⟨f, g, ha, hb, rfl⟩ := h
    -- the second document runs on the page that the first one leaves, if it does not stop
    have hstop := iha ha he
    have hlimit := (a.limit_run e).trans he
    show (andThen (a.run e) b.run).2 = _
    generalize a.run e = r at hstop hlimit
    obtain ⟨e', stopped⟩ := r
    obtain rfl : stopped = f.map .tree := hstop
    cases f with
    | none => exact ihb hb hlimit
    | some f => rfl
  | fault f =>
    obtain rfl : defect = some f := h
    rfl

/-- A document that stops at no fault is `faultless`. -/
theorem Stops.faultless {d : Doc} (h : d.Stops none) : d.faultless = true := by
  induction d with
  | within width inline wrapped ih => exact ih h.1
  | indented extra d ih => exact ih h
  | seq a b iha ihb =>
    obtain ⟨f, g, ha, hb, hnone⟩ := h
    obtain ⟨rfl, rfl⟩ := Option.or_eq_none_iff.1 hnone.symm
    simp [Doc.faultless, iha ha, ihb hb]
  | fault f => cases h
  | _ => rfl

section Stops

variable {a b : Doc} {f g : Option Defect}

@[simp] theorem stops_text (s : String) : (text s).Stops none :=
  rfl

@[simp] theorem stops_freshLine : freshLine.Stops none :=
  rfl

@[simp] theorem stops_lineFeed : lineFeed.Stops none :=
  rfl

@[simp] theorem stops_empty : empty.Stops none :=
  rfl

@[simp] theorem stops_when (condition : Bool) (s : String) : (when condition s).Stops none := by
  cases condition <;> rfl

/-- Two documents in a row stop at no fault if neither does. -/
@[simp] theorem stops_none_append : (a ++ b).Stops none ↔ a.Stops none ∧ b.Stops none := by
  constructor
  · rintro ⟨f, g, ha, hb, hnone⟩
    obtain ⟨rfl, rfl⟩ := Option.or_eq_none_iff.1 hnone.symm
    exact ⟨ha, hb⟩
  · rintro ⟨ha, hb⟩
    exact ⟨none, none, ha, hb, rfl⟩

/-- Otherwise the first fault counts. -/
theorem Stops.append (ha : a.Stops f) (hb : b.Stops g) : (a ++ b).Stops (f.or g) :=
  ⟨f, g, ha, hb, rfl⟩

/-- What comes after without a fault changes nothing. -/
theorem Stops.before (ha : a.Stops f) (hb : b.Stops none) : (a ++ b).Stops f :=
  ⟨f, none, ha, hb, Option.or_none.symm⟩

/-- What comes before without a fault changes nothing. -/
theorem Stops.after (hb : b.Stops f) (ha : a.Stops none) : (a ++ b).Stops f :=
  ⟨none, f, ha, hb, rfl⟩

theorem Stops.indented (ha : a.Stops f) (extra : String) : (Doc.indented extra a).Stops f :=
  ha

/-- The parentheses of `Expr.fitted` are no fault. -/
theorem Stops.fitted (ha : a.Stops f) (required : Precedence) (e : Expr) :
    (e.fitted required a).Stops f := by
  unfold Expr.fitted
  split
  · exact (ha.after (stops_text _)).before (stops_text _)
  · exact ha

theorem stops_concat {ds : List Doc} (h : ∀ d ∈ ds, d.Stops none) : (concat ds).Stops none := by
  induction ds with
  | nil => rfl
  | cons d ds ih =>
    rw [List.forall_mem_cons] at h
    exact h.1.append (ih h.2)

end Stops

/-- The first fault in a row of documents, each of which `Stops`. -/
inductive StopIn : List Doc → Option Defect → Prop
  | nil : StopIn [] none
  | cons {d : Doc} {ds : List Doc} {f g : Option Defect} (h : d.Stops f) (hs : StopIn ds g) :
      StopIn (d :: ds) (f.or g)

namespace StopIn

variable {ds : List Doc} {f : Option Defect}

/-- The separators of `Doc.join` are no fault. -/
theorem join (h : StopIn ds f) (separator : String) : (Doc.join separator ds).Stops f := by
  induction h with
  | nil => rfl
  | @cons d ds f g h hs ih =>
    cases hs with
    | nil => simpa [Doc.join] using h
    | cons => exact (h.before (stops_text _)).append ih

theorem commaLines (h : StopIn ds f) : (Doc.commaLines ds).Stops f := by
  induction h with
  | nil => rfl
  | cons h _ ih =>
    exact ((h.indented _).after (stops_freshLine.before (stops_text _))).append ih

/-- Nor are the brackets and lines of `Doc.laidOut`, on one line or on several. -/
theorem laidOut (h : StopIn ds f) (opening closing : String) :
    (Doc.laidOut opening closing ds).Stops f := by
  cases h with
  | nil => exact ((stops_text _).before (stops_text _)).before (stops_text _)
  | cons h hs =>
    cases hs with
    | nil =>
      rw [Option.or_none]
      exact ((h.after ((stops_text _).before (stops_text _))).before (stops_text _)).before
        (stops_text _)
    | cons h' hs =>
      have hfirst := (h.indented "  ").after (stops_freshLine.before (stops_text "  "))
      have hitems := (hfirst.append (StopIn.cons h' hs).commaLines).indented "  "
      exact ((hitems.after (stops_text _)).before stops_freshLine).before (stops_text _)

end StopIn

end Doc

/-! ## Parts without subtrees -/

namespace Print

open Doc

variable {test body : Doc} {f g : Option Defect}

@[simp] theorem stops_signature (params : List String) : (signature params).Stops none := by
  simp [signature, names]

@[simp] theorem stops_arrowHead (params : List String) : (arrowHead params).Stops none := by
  simp [arrowHead, names]

@[simp] theorem stops_exportWord (exported : Bool) : (exportWord exported).Stops none :=
  stops_when _ _

theorem stops_block (h : body.Stops f) (s : Surface) : (block s body).Stops f :=
  (((h.indented _).after (stops_text _)).before stops_freshLine).before (stops_text _)

theorem stops_header (h : test.Stops f) (s : Surface) : (header s test).Stops f :=
  (h.after (stops_text _)).before (stops_text _)

/-- `Print.branch` writes the test before the body. -/
theorem stops_branch (ht : test.Stops f) (hb : body.Stops g) (s : Surface) (further : Bool) :
    (branch s further test body).Stops (f.or g) := by
  unfold branch
  split
  · have htest := ((stops_header ht s).after (stops_text "if ")).before (stops_text " ")
    exact htest.append (stops_block hb s)
  · have hword : (Doc.text (if further then "elsif" else "if")).Stops none := rfl
    have htest := ht.after (hword.before (stops_text " "))
    exact ((htest.before (stops_text _)).before (stops_text _)).append (hb.indented _)

@[simp] theorem stops_beforeElsif (s : Surface) : (beforeElsif s).Stops none := by
  unfold beforeElsif
  split <;> rfl

/-- `Print.elseBlock` has its words and no fault of its own. -/
theorem stops_elseBlock (h : body.Stops f) (s : Surface) : (elseBlock s body).Stops f := by
  unfold elseBlock
  split
  · exact (stops_block h s).after (stops_text _)
  · exact (h.indented _).after (stops_freshLine.before (stops_text _))

@[simp] theorem stops_conditionalEnd (s : Surface) (further : Bool) :
    (conditionalEnd s further).Stops none := by
  unfold conditionalEnd
  split <;> simp

@[simp] theorem stops_comments (cs : List Comment) : (comments cs).Stops none := by
  induction cs with
  | nil => rfl
  | cons c cs ih => simpa [comments] using ih

@[simp] theorem stops_importLines (ns : List String) : (importLines ns).Stops none := by
  induction ns with
  | nil => rfl
  | cons n ns ih => simpa [importLines] using ih

/-- An import holds no tree, so nothing in it is a fault. -/
@[simp] theorem stops_importLine (i : Import) : (importLine i).Stops none := by
  cases i with
  | names ns path =>
    have hfirst : (firstName ns).Stops none := by cases ns <;> rfl
    refine stops_freshLine.before ⟨?_, rfl⟩
    exact hfirst.after (stops_text _) |>.before (Stops.indented (by simp) _)
  | whole name path => simp [importLine]

end Print

/-! ## Trees -/

section Tree

open Doc Print

variable (s : Surface)

@[simp] theorem BinaryOp.stops_infixText (op : BinaryOp) : op.infixText.Stops none := by
  cases op <;> simp [BinaryOp.infixText]

mutual

/-- The document of an expression stops at `Expr.defect?`, in every surface. -/
theorem Expr.stops_doc : ∀ e : Expr, (e.doc s).Stops e.defect?
  | .symbol _ | .literal _ => stops_text _
  | .grouping inner =>
    ((inner.stops_doc.fitted _ _).after (stops_text _)).before (stops_text _)
  | .unary op operand => by
    have ih := operand.stops_doc
    cases op with
    | new =>
      -- what a checked constructor refuses is printed as the fault itself
      cases hpath : operand.isSymbolPath with
      | false => simp [Expr.doc, Expr.defect?, Expr.unary?, refusal?, hpath, Stops]
      | true =>
        simp only [Expr.doc, Expr.defect?, Expr.unary?, refusal?, hpath]
        exact (ih.fitted _ _).after (stops_text _)
    | _ => exact (ih.fitted _ _).after ((stops_text _).before (stops_when _ _))
  | .step op operand => (operand.stops_doc.fitted _ _).before (stops_text _)
  | .binary op left right => by
    have ihl := left.stops_doc
    have ihr := right.stops_doc
    cases op with
    | new =>
      cases hpath : left.isSymbolPath with
      | false => simp [Expr.doc, Expr.defect?, Expr.binary?, refusal?, hpath, Stops]
      | true =>
        cases hlist : right.isList with
        | false => simp [Expr.doc, Expr.defect?, Expr.binary?, refusal?, hpath, hlist, Stops]
        | true =>
          simp only [Expr.doc, Expr.defect?, Expr.binary?, refusal?, hpath, hlist]
          exact ((ihl.fitted _ _).after (stops_text _)).append ihr
    | dot =>
      cases right with
      | symbol name =>
        exact ((ihl.fitted _ _).before (stops_text _)).append (stops_text _)
      | _ => rfl
    | _ =>
      exact ((ihl.fitted _ _).before (BinaryOp.stops_infixText _)).append (ihr.fitted _ _)
  | .ternary test yes no =>
    ((((test.stops_doc.fitted _ _).before (stops_text _)).append (yes.stops_doc.fitted _ _)).before
      (stops_text _)).append (no.stops_doc.fitted _ _)
  | .call callee arguments => by
    have ihc := callee.stops_doc
    have iha := arguments.stops_doc
    cases hlist : arguments.isList with
    | false => simp [Expr.doc, Expr.defect?, Expr.call?, refusal?, hlist, Stops]
    | true =>
      simp only [Expr.doc, Expr.defect?, Expr.call?, refusal?, hlist]
      exact (ihc.fitted _ _).append iha
  | .index target position =>
    (((target.stops_doc.fitted _ _).before (stops_text _)).append
      (position.stops_doc.fitted _ _)).before (stops_text _)
  | .object es => (Entry.stopIn_docs es).laidOut _ _
  | .array es => (Expr.stopIn_docs es).laidOut _ _
  | .list es trailingComma =>
    ((((Expr.stopIn_docs es).join _).after (stops_text _)).before (stops_when _ _)).before
      (stops_text _)
  | .function name params body => by
    have hbody := stops_block (Declaration.stops_docs body) s
    cases name <;> exact hbody.after (by simp)
  | .arrow params body => by
    have ih := body.stops_doc
    rw [Expr.doc, Expr.defect?]
    split
    · exact (((ih.fitted _ _).after (stops_text _)).before (stops_text _)).after
        (stops_arrowHead params)
    · exact (ih.fitted _ _).after (stops_arrowHead params)
  | .arrowBlock params body =>
    (stops_block (Declaration.stops_docs body) s).after (stops_arrowHead params)

/-- The documents of several expressions stop at the first defect among them. -/
theorem Expr.stopIn_docs : ∀ es : List Expr, StopIn (Expr.docs s es) (Expr.defectIn? es)
  | [] => .nil
  | e :: es => .cons (e.stops_doc.fitted _ _) (Expr.stopIn_docs es)

theorem Entry.stopIn_docs : ∀ es : List Entry, StopIn (Entry.docs s es) (Entry.defectIn? es)
  | [] => .nil
  | .shorthand _ :: es => .cons (stops_text _) (Entry.stopIn_docs es)
  | .pair _ value :: es =>
    .cons ((value.stops_doc.fitted _ _).after ((stops_text _).before (stops_text _)))
      (Entry.stopIn_docs es)

/-- The document of a statement stops at `Statement.defect?`. A surface in which the branches of
a conditional share one end writes them by the same recursion as one in which they are nested. -/
theorem Statement.stops_doc : ∀ (st : Statement) (further : Bool),
    (st.doc s further).Stops st.defect?
  | .ifThen test body none, further =>
    (stops_branch (test.stops_doc.fitted _ _) (Declaration.stops_docs body) s further).before
      (stops_conditionalEnd s further)
  | .ifThen test body (some other), further => by
    have hbranch := stops_branch (test.stops_doc.fitted .comma test) (Declaration.stops_docs body)
      s further
    cases other with
    | block other =>
      exact (hbranch.append (stops_elseBlock (Declaration.stops_docs other) s)).before
        (stops_conditionalEnd s further)
    | ifThen t b o =>
      exact ((hbranch.before (stops_beforeElsif s)).append
        (Statement.stops_doc (.ifThen t b o) true)).before (stops_conditionalEnd s further)
    | _ => exact hbranch.append rfl
  | .whileLoop test body, _ =>
    (((stops_header (test.stops_doc.fitted _ _) s).after (stops_text _)).before
      (stops_text _)).append (stops_block (Declaration.stops_docs body) s)
  | .forLoop keyword ns collection body bracketed, _ => by
    have hcollection := collection.stops_doc.fitted .comma collection
    have hbody := stops_block (Declaration.stops_docs body) s
    cases keyword <;> cases bracketed <;>
      exact (((hcollection.after (by simp [names])).before (stops_text _)).before
        (stops_text _)).append hbody
  | .throw value, _ => ((value.stops_doc.fitted _ _).after (stops_text _)).before (stops_text _)
  | .ret none, _ => (stops_text _).before (stops_text _)
  | .ret (some value), _ =>
    ((value.stops_doc.fitted _ _).after (by simp)).before (stops_text _)
  | .expr value, _ => by
    have ih := value.stops_doc.fitted .comma value
    rw [Statement.doc, Statement.defect?]
    split
    · exact ((ih.after (stops_text _)).before (stops_text _)).before (stops_text _)
    · exact ih.before (stops_text _)
  | .block body, _ => stops_block (Declaration.stops_docs body) s

/-- The document of a declaration stops at `Declaration.defect?`. -/
theorem Declaration.stops_doc : ∀ x : Declaration, (x.doc s).Stops x.defect?
  | .function name params body exported isAsync =>
    (stops_block (Declaration.stops_docs body) s).after (by simp)
  | .var keyword name none exported => by simp [Declaration.doc, Declaration.defect?]
  | .var keyword name (some value) exported =>
    ((value.stops_doc.fitted _ _).after (by simp)).before (stops_text _)
  | .vars keyword names value exported =>
    ((value.stops_doc.fitted _ _).after (by simp [Print.names])).before (stops_text _)
  | .statement st => (st.stops_doc false).after stops_freshLine
  | .comments cs => stops_comments cs

/-- That of a block stops at the first defect in it. -/
theorem Declaration.stops_docs : ∀ xs : List Declaration,
    (Declaration.docs s xs).Stops (Declaration.defectIn? xs)
  | [] => rfl
  | x :: xs => x.stops_doc.append (Declaration.stops_docs xs)

end

/-- The document of a program stops at `Program.defect?`. -/
theorem Program.stops_doc (p : Program) : (p.doc s).Stops p.defect? := by
  have himports : (Doc.concat (p.imports.map importLine)).Stops none :=
    stops_concat (List.forall_mem_map.2 fun i _ => stops_importLine i)
  have hbody := Declaration.stops_docs s p.body
  unfold Program.doc
  cases p.moduleName <;> cases p.trailer.isEmpty <;>
    exact ((hbody.after (by simp [himports])).before (by simp)).before stops_lineFeed

end Tree

/-! ## Printing -/

namespace Doc.Stops

variable {doc : Doc}

/-- Printing ends in the defect at which the document `Stops`. -/
theorem result_error {defect : Defect} (h : doc.Stops (some defect)) :
    Emitter.result (doc.run (.ofSink .unlimited)) = .error (.tree defect) := by
  have hstop := h.run (e := .ofSink .unlimited) rfl
  generalize doc.run (.ofSink .unlimited) = r at hstop
  obtain ⟨e, stopped⟩ := r
  obtain rfl : stopped = some (.tree defect) := hstop
  rfl

theorem exists_result (h : doc.Stops none) :
    ∃ text, Emitter.result (doc.run (.ofSink .unlimited)) = .ok text := by
  have hstop := h.run (e := .ofSink .unlimited) rfl
  generalize doc.run (.ofSink .unlimited) = r at hstop
  obtain ⟨e, stopped⟩ := r
  obtain rfl : stopped = none := hstop
  exact ⟨_, rfl⟩

/-- Printing comes to a text exactly if the document `Stops` at no defect. -/
theorem exists_result_iff {defect : Option Defect} (h : doc.Stops defect) :
    (∃ text, Emitter.result (doc.run (.ofSink .unlimited)) = .ok text) ↔ defect = none := by
  cases defect with
  | none => exact ⟨fun _ => rfl, fun _ => h.exists_result⟩
  | some defect => simp [h.result_error]

end Doc.Stops

/-- `printExpr` comes to a text exactly if each node of the expression is `Node.Printable`,
whatever the dialect. -/
theorem exists_printExpr_iff (d : Dialect) (e : Expr) :
    (∃ text, printExpr d e = .ok text) ↔ AllNodes Node.Printable e.nodes :=
  ((e.stops_doc d.surface).fitted .comma e).exists_result_iff.trans e.defect?_eq_none_iff

/-- `printProgram` comes to a text exactly if each node of the program is `Node.Printable`,
whatever the dialect. -/
theorem exists_printProgram_iff (d : Dialect) (p : Program) :
    (∃ text, printProgram d p = .ok text) ↔ AllNodes Node.Printable p.nodes :=
  (p.stops_doc d.surface).exists_result_iff.trans p.defect?_eq_none_iff

end Diglot

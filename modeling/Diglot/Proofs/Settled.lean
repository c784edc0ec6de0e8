import Mathlib.Data.List.Forall2
import Diglot.Proofs.Nodes
import Diglot.Proofs.Writing

/-!
# Settled trees

What the printed text of a tree is read back as. It is the tree itself, except where printing puts
parentheses around a statement, or around the body of an arrow function, that would otherwise be
read as a block: the parentheses are then nodes of the tree. A settled tree prints as the tree it
comes from.

- `Expr.enclosed`: an expression in parentheses, as it is read.
- `Expr.settle`, `Entry.settle`, `Statement.settle`, `Declaration.settle`: settled trees.
- `Expr.same_doc_settle` and its companions: settling does not change what is printed.
- `Node.Settled`: a node that is read as what it is; `Declaration.settles_of_allSettled`: a tree of
  such nodes is read back as it is.
-/

namespace Diglot

namespace Expr

/-- The operands of the commas at the top of an expression, from left to right. -/
def commaParts : Expr → List Expr
  | .binary .comma left right => left.commaParts ++ [right]
  | e => [e]

/-- An expression in parentheses, as it is read. Commas between parentheses separate the
elements of an `Expr.list`. -/
def enclosed : Expr → Expr
  | .binary .comma left right => .list (commaParts (.binary .comma left right)) false
  | e => .grouping e

end Expr

mutual

/-- What a printed expression is read as. Only an arrow function whose body `readsAsBlock`
changes: the body is then `Expr.enclosed`. -/
def Expr.settle (s : Surface) : Expr → Expr
  | .symbol name => .symbol name
  | .literal value => .literal value
  | .grouping inner => .grouping (inner.settle s)
  | .unary op operand => .unary op (operand.settle s)
  | .step op operand => .step op (operand.settle s)
  | .binary op left right => .binary op (left.settle s) (right.settle s)
  | .ternary test yes no => .ternary (test.settle s) (yes.settle s) (no.settle s)
  | .call callee arguments => .call (callee.settle s) (arguments.settle s)
  | .index target position => .index (target.settle s) (position.settle s)
  | .object es => .object (Entry.settles s es)
  | .list es trailingComma => .list (Expr.settles s es) trailingComma
  | .array es => .array (Expr.settles s es)
  | .function name params body => .function name params (Declaration.settles s body)
  | .arrow params body =>
    .arrow params (if body.readsAsBlock s then .grouping (body.settle s) else body.settle s)
  | .arrowBlock params body => .arrowBlock params (Declaration.settles s body)

/-- Several settled expressions. -/
def Expr.settles (s : Surface) : List Expr → List Expr
  | [] => []
  | e :: es => e.settle s :: Expr.settles s es

/-- What a printed object entry is read as. -/
def Entry.settle (s : Surface) : Entry → Entry
  | .shorthand key => .shorthand key
  | .pair key value => .pair key (value.settle s)

/-- Several settled object entries. -/
def Entry.settles (s : Surface) : List Entry → List Entry
  | [] => []
  | e :: es => e.settle s :: Entry.settles s es

/-- What a printed statement is read as. Only an expression that `isAmbiguous` changes. -/
def Statement.settle (s : Surface) : Statement → Statement
  | .ifThen test body none => .ifThen (test.settle s) (Declaration.settles s body) none
  | .ifThen test body (some other) =>
    .ifThen (test.settle s) (Declaration.settles s body) (some (other.settle s))
  | .whileLoop test body => .whileLoop (test.settle s) (Declaration.settles s body)
  | .forLoop keyword names collection body bracketed =>
    .forLoop keyword names (collection.settle s) (Declaration.settles s body) bracketed
  | .throw value => .throw (value.settle s)
  | .ret none => .ret none
  | .ret (some value) => .ret (some (value.settle s))
  | .expr value =>
    .expr (if value.isAmbiguous s then (value.settle s).enclosed else value.settle s)
  | .block body => .block (Declaration.settles s body)

/-- What a printed declaration is read as. -/
def Declaration.settle (s : Surface) : Declaration → Declaration
  | .function name params body exported isAsync =>
    .function name params (Declaration.settles s body) exported isAsync
  | .var keyword name none exported => .var keyword name none exported
  | .var keyword name (some value) exported => .var keyword name (some (value.settle s)) exported
  | .vars keyword names value exported => .vars keyword names (value.settle s) exported
  | .statement st => .statement (st.settle s)
  | .comments cs => .comments cs

/-- Several settled declarations. -/
def Declaration.settles (s : Surface) : List Declaration → List Declaration
  | [] => []
  | x :: xs => x.settle s :: Declaration.settles s xs

end

/-! ## Settling keeps the shape -/

namespace Expr

variable (s : Surface)

@[simp] theorem isArrow_settle (e : Expr) : (e.settle s).isArrow = e.isArrow := by
  cases e <;> rfl

@[simp] theorem isList_settle (e : Expr) : (e.settle s).isList = e.isList := by
  cases e <;> rfl

@[simp] theorem precedence_settle (e : Expr) : (e.settle s).precedence = e.precedence := by
  cases e <;> rfl

@[simp] theorem isOpenUnary_settle (e : Expr) :
    Rules.isOpenUnary (e.settle s) = Rules.isOpenUnary e := by
  cases e <;> rfl

@[simp] theorem isSymbol_settle (e : Expr) : (e.settle s).isSymbol = e.isSymbol := by
  cases e <;> rfl

/-- A path holds nothing that `settle` changes. -/
@[simp] theorem isSymbolPath_settle (e : Expr) :
    (e.settle s).isSymbolPath = e.isSymbolPath := by
  fun_induction isSymbolPath e with
  | case1 => rfl
  | case2 left right ih => simp [settle, isSymbolPath, ih]
  | case3 e h₁ h₂ => cases e <;> simp_all [settle, isSymbolPath]

/-- The first node is settled where it stands. -/
theorem leftmost_settle (e : Expr) : (e.settle s).leftmost = e.leftmost.settle s := by
  fun_induction leftmost e with
  | case1 => rfl
  | case2 op left right hop ih => simp_all [settle, leftmost]
  | case3 test yes no ih => exact ih
  | case4 callee arguments ih => exact ih
  | case5 target position ih => exact ih
  | case6 op operand ih => exact ih
  | case7 e => cases e <;> simp_all [settle, leftmost]

/-- Whether an expression `readsAsBlock` depends on its first node, which `settle` keeps. -/
@[simp] theorem readsAsBlock_settle (e : Expr) :
    (e.settle s).readsAsBlock s = e.readsAsBlock s := by
  unfold readsAsBlock
  rw [leftmost_settle]
  cases e.leftmost <;> rfl

/-- So does whether it `isAmbiguous`. -/
@[simp] theorem isAmbiguous_settle (e : Expr) :
    (e.settle s).isAmbiguous s = e.isAmbiguous s := by
  unfold isAmbiguous
  rw [leftmost_settle]
  cases e.leftmost <;> rfl

/-- So does whether an operator `mergesWith` it. -/
theorem mergesWith_settle (op : UnaryOp) (e : Expr) :
    op.mergesWith (e.settle s) = op.mergesWith e := by
  cases e with
  | unary op' operand => cases op <;> cases op' <;> rfl
  | _ => cases op <;> rfl

theorem gap_settle (op : UnaryOp) (e : Expr) : op.gap (e.settle s) = op.gap e := by
  unfold UnaryOp.gap
  rw [mergesWith_settle]

end Expr

/-! ## Settling does not change what is printed -/

namespace Doc.Same

/-- Settling does not change which operands `Expr.fitted` puts in parentheses. -/
theorem fitted_settle {s : Surface} {e : Expr} (h : ((e.settle s).doc s).Same (e.doc s))
    (required : Precedence) :
    ((e.settle s).fitted required ((e.settle s).doc s)).Same (e.fitted required (e.doc s)) := by
  unfold Expr.fitted
  rw [Expr.precedence_settle]
  split
  · exact ((Same.refl _).append h).append (.refl _)
  · exact h

/-- `Same` goes through `Doc.join`, one document after the other. -/
theorem join {ds ds' : List Doc} (h : List.Forall₂ Same ds ds') (separator : String) :
    (Doc.join separator ds).Same (Doc.join separator ds') := by
  induction h with
  | nil => exact .refl _
  | @cons d d' ds ds' hd hds ih =>
    cases hds with
    | nil => exact hd
    | cons hd' hds => exact (hd.append (.refl _)).append ih

theorem commaLines {ds ds' : List Doc} (h : List.Forall₂ Same ds ds') :
    (Doc.commaLines ds).Same (Doc.commaLines ds') := by
  induction h with
  | nil => exact .refl _
  | cons hd _ ih => exact ((Same.refl _).append (hd.indented "  ")).append ih

/-- `Same` goes through `Doc.laidOut`, which looks at how many documents there are and not at
what they are. -/
theorem laidOut {ds ds' : List Doc} (h : List.Forall₂ Same ds ds') (opening closing : String) :
    (Doc.laidOut opening closing ds).Same (Doc.laidOut opening closing ds') := by
  cases h with
  | nil => exact .refl _
  | cons hd hds =>
    cases hds with
    | nil => exact (((Same.refl _).append hd).append (.refl _)).append (.refl _)
    | cons hd' hds =>
      have items := ((Same.refl (freshLine ++ text "  ")).append (hd.indented "  ")).append
        (commaLines (.cons hd' hds))
      exact (((Same.refl _).append (items.indented "  ")).append (.refl _)).append (.refl _)

/-- Documents in a row by `Doc.join`, and one more after them. -/
theorem join_concat {ds : List Doc} (hds : ds ≠ []) (separator : String) (d : Doc) :
    (Doc.join separator (ds ++ [d])).Same (Doc.join separator ds ++ separator ++ d) := by
  induction ds with
  | nil => exact absurd rfl hds
  | cons x xs ih =>
    cases xs with
    | nil => exact .refl _
    | cons y ys =>
      have hrest := (Same.refl (x ++ text separator)).append (ih (by simp))
      refine hrest.trans ?_
      refine (append_assoc _ _ _).symm.trans ?_
      exact (append_assoc _ _ _).symm.append (.refl _)

theorem block (s : Surface) {a a' : Doc} (h : a.Same a') :
    (Print.block s a).Same (Print.block s a') :=
  (((Same.refl _).append (h.indented "  ")).append (.refl _)).append (.refl _)

theorem header (s : Surface) {a a' : Doc} (h : a.Same a') :
    (Print.header s a).Same (Print.header s a') :=
  ((Same.refl _).append h).append (.refl _)

/-- `Same` goes through `Print.branch`, in both surfaces. -/
theorem branch (s : Surface) (further : Bool) {a a' b b' : Doc} (ha : a.Same a') (hb : b.Same b') :
    (Print.branch s further a b).Same (Print.branch s further a' b') := by
  unfold Print.branch
  split
  · exact (((Same.refl _).append (ha.header s)).append (.refl _)).append (hb.block s)
  · exact ((((Same.refl _).append ha).append (.refl _)).append (.refl _)).append (hb.indented "  ")

theorem elseBlock (s : Surface) {a a' : Doc} (h : a.Same a') :
    (Print.elseBlock s a).Same (Print.elseBlock s a') := by
  unfold Print.elseBlock
  split
  · exact (Same.refl _).append (h.block s)
  · exact (Same.refl _).append (h.indented "  ")

end Doc.Same

namespace Expr

/-- `Expr.docs` goes through a list one expression after the other. -/
theorem docs_append (s : Surface) (es es' : List Expr) :
    Expr.docs s (es ++ es') = Expr.docs s es ++ Expr.docs s es' := by
  induction es with
  | nil => rfl
  | cons e es ih => simp [Expr.docs, ih]

theorem commaParts_ne_nil (e : Expr) : e.commaParts ≠ [] := by
  fun_induction commaParts e <;> simp

/-- Only `BinaryOp.comma` binds less strongly than an assignment. -/
theorem assignment_le_precedence {e : Expr} (h : ∀ left right, e ≠ .binary .comma left right) :
    Precedence.assignment ≤ e.precedence := by
  cases e with
  | binary op left right =>
    cases op with
    | comma => exact absurd rfl (h left right)
    | _ => exact Nat.le_of_ble_eq_true rfl
  | unary op operand => cases op <;> exact Nat.le_of_ble_eq_true rfl
  | _ => exact Nat.le_of_ble_eq_true rfl

/-- Nothing binds less strongly than `BinaryOp.comma`. -/
theorem comma_le_precedence (e : Expr) : Precedence.comma ≤ e.precedence := by
  by_cases h : ∀ left right, e ≠ .binary .comma left right
  · exact Nat.le_trans (by decide) (assignment_le_precedence h)
  · simp only [ne_eq, not_forall, not_not] at h
    obtain ⟨left, right, rfl⟩ := h
    exact Nat.le_refl _

@[simp] theorem fitted_comma (e : Expr) (doc : Doc) : e.fitted .comma doc = doc := by
  rw [fitted, if_neg (Nat.not_lt.2 e.comma_le_precedence)]

/-- An operand that binds strongly enough stands without parentheses. -/
theorem fitted_of_le {required : Precedence} {e : Expr} (h : required ≤ e.precedence) (doc : Doc) :
    e.fitted required doc = doc := by
  rw [fitted, if_neg (Nat.not_lt.2 h)]

/-- An expression is printed as its `commaParts` are, with commas between them. -/
theorem same_join_commaParts (s : Surface) (e : Expr) :
    (Doc.join ", " (Expr.docs s e.commaParts)).Same (e.doc s) := by
  fun_induction commaParts e with
  | case1 left right ih =>
    rw [docs_append]
    -- the last part is split off, and the others are those of the left side
    refine (Doc.Same.join_concat ?_ ", " _).trans ?_
    · cases h : left.commaParts with
      | nil => exact absurd h left.commaParts_ne_nil
      | cons => simp [Expr.docs]
    · have hleft : left.fitted BinaryOp.comma.required.1 (left.doc s) = left.doc s :=
        fitted_comma left _
      simp only [Expr.doc]
      rw [hleft]
      exact (ih.append (.refl _)).append (.refl _)
  | case2 e h =>
    simp only [Expr.docs, Doc.join]
    rw [fitted_of_le (assignment_le_precedence h)]
    exact .refl _

/-- `Expr.enclosed` is printed as the expression in parentheses. -/
theorem same_doc_enclosed (s : Surface) (e : Expr) :
    (e.enclosed.doc s).Same ("(" ++ e.doc s ++ ")") := by
  fun_cases enclosed e with
  | case1 left right =>
    have hjoin := (Doc.Same.refl ("(" : Doc)).append
      (same_join_commaParts s (.binary .comma left right))
    simp only [Expr.doc] at hjoin ⊢
    exact ((Doc.Same.append_empty _).trans hjoin).append (.refl _)
  | case2 e h =>
    rw [Expr.doc, fitted_comma]
    exact .refl _

/-- What stands in parentheses is never `isAmbiguous`. -/
theorem isAmbiguous_enclosed (s : Surface) (e : Expr) : e.enclosed.isAmbiguous s = false := by
  fun_cases enclosed e <;> rfl

end Expr

mutual

/-- `Expr.settle` does not change what is printed. -/
theorem Expr.same_doc_settle (s : Surface) : ∀ e : Expr, ((e.settle s).doc s).Same (e.doc s)
  | .symbol _ => .refl _
  | .literal _ => .refl _
  | .grouping inner => by
    simp only [Expr.settle, Expr.doc, Expr.fitted_comma]
    exact ((Doc.Same.refl _).append (inner.same_doc_settle s)).append (.refl _)
  | .unary op operand => by
    have hoperand := operand.same_doc_settle s
    cases op with
    | new =>
      simp only [Expr.settle, Expr.doc, Expr.isSymbolPath_settle]
      split
      · exact (Doc.Same.refl _).append (hoperand.fitted_settle _)
      · exact .refl _
    | _ =>
      simp only [Expr.settle, Expr.doc, Expr.gap_settle]
      exact (Doc.Same.refl _).append (hoperand.fitted_settle _)
  | .step op operand => by
    simp only [Expr.settle, Expr.doc]
    exact ((operand.same_doc_settle s).fitted_settle _).append (.refl _)
  | .binary op left right => by
    have hleft := left.same_doc_settle s
    have hright := right.same_doc_settle s
    cases op with
    | new =>
      simp only [Expr.settle, Expr.doc, Expr.isSymbolPath_settle, Expr.isList_settle]
      split
      · exact .refl _
      · split
        · exact .refl _
        · exact ((Doc.Same.refl _).append (hleft.fitted_settle _)).append hright
    | dot =>
      cases right with
      | symbol name =>
        simp only [Expr.settle, Expr.doc]
        exact ((hleft.fitted_settle _).append (.refl _)).append (.refl _)
      | _ => exact .refl _
    | _ =>
      simp only [Expr.settle, Expr.doc]
      exact ((hleft.fitted_settle _).append (.refl _)).append (hright.fitted_settle _)
  | .ternary test yes no => by
    simp only [Expr.settle, Expr.doc]
    have htest := (test.same_doc_settle s).fitted_settle (.ternary + 1)
    have hyes := (yes.same_doc_settle s).fitted_settle .assignment
    have hno := (no.same_doc_settle s).fitted_settle .assignment
    exact (((htest.append (.refl _)).append hyes).append (.refl _)).append hno
  | .call callee arguments => by
    simp only [Expr.settle, Expr.doc, Expr.isList_settle]
    split
    · exact ((callee.same_doc_settle s).fitted_settle _).append (arguments.same_doc_settle s)
    · exact .refl _
  | .index target position => by
    simp only [Expr.settle, Expr.doc, Expr.fitted_comma]
    have htarget := (target.same_doc_settle s).fitted_settle .member
    exact ((htarget.append (.refl _)).append (position.same_doc_settle s)).append (.refl _)
  | .object es => by
    simp only [Expr.settle, Expr.doc]
    exact .laidOut (Entry.same_docs_settles s es) _ _
  | .array es => by
    simp only [Expr.settle, Expr.doc]
    exact .laidOut (Expr.same_docs_settles s es) _ _
  | .list es trailingComma => by
    simp only [Expr.settle, Expr.doc]
    have hitems := Doc.Same.join (Expr.same_docs_settles s es) ", "
    exact (((Doc.Same.refl _).append hitems).append (.refl _)).append (.refl _)
  | .function name params body => by
    simp only [Expr.settle, Expr.doc]
    exact (Doc.Same.refl _).append ((Declaration.same_docs_settles s body).block s)
  | .arrow params body => by
    have hbody := body.same_doc_settle s
    simp only [Expr.settle, Expr.doc, Expr.fitted_comma]
    refine (Doc.Same.refl _).append ?_
    split
    · rw [if_neg (by simp [Expr.readsAsBlock, Expr.leftmost]),
        Expr.fitted_of_le (Nat.le_of_ble_eq_true rfl)]
      simp only [Expr.doc, Expr.fitted_comma]
      exact ((Doc.Same.refl _).append hbody).append (.refl _)
    · next h =>
      rw [if_neg (by rwa [Expr.readsAsBlock_settle])]
      exact hbody.fitted_settle _
  | .arrowBlock params body => by
    simp only [Expr.settle, Expr.doc]
    exact (Doc.Same.refl _).append ((Declaration.same_docs_settles s body).block s)

theorem Expr.same_docs_settles (s : Surface) : ∀ es : List Expr,
    List.Forall₂ Doc.Same (Expr.docs s (Expr.settles s es)) (Expr.docs s es)
  | [] => .nil
  | e :: es => by
    simp only [Expr.settles, Expr.docs]
    exact .cons ((e.same_doc_settle s).fitted_settle _) (Expr.same_docs_settles s es)

/-- Nor does `Entry.settle`. -/
theorem Entry.same_doc_settle (s : Surface) : ∀ e : Entry, ((e.settle s).doc s).Same (e.doc s)
  | .shorthand _ => .refl _
  | .pair key value => by
    simp only [Entry.settle, Entry.doc]
    exact (Doc.Same.refl _).append ((value.same_doc_settle s).fitted_settle _)

theorem Entry.same_docs_settles (s : Surface) : ∀ es : List Entry,
    List.Forall₂ Doc.Same (Entry.docs s (Entry.settles s es)) (Entry.docs s es)
  | [] => .nil
  | e :: es => by
    simp only [Entry.settles, Entry.docs]
    exact .cons (e.same_doc_settle s) (Entry.same_docs_settles s es)

/-- Nor does `Statement.settle`: printing puts in parentheses what is now a node in parentheses. -/
theorem Statement.same_doc_settle (s : Surface) : ∀ (further : Bool) (st : Statement),
    ((st.settle s).doc s further).Same (st.doc s further)
  | further, .ifThen test body none => by
    simp only [Statement.settle, Statement.doc, Expr.fitted_comma]
    have hbranch := Doc.Same.branch s further (test.same_doc_settle s)
      (Declaration.same_docs_settles s body)
    exact hbranch.append (.refl _)
  | further, .ifThen test body (some other) => by
    have hbranch := Doc.Same.branch s further (test.same_doc_settle s)
      (Declaration.same_docs_settles s body)
    cases other with
    | block other =>
      simp only [Statement.settle, Statement.doc, Expr.fitted_comma]
      exact (hbranch.append ((Declaration.same_docs_settles s other).elseBlock s)).append (.refl _)
    | ifThen t b o =>
      have hother := Statement.same_doc_settle s true (.ifThen t b o)
      cases o with
      | none =>
        simp only [Statement.settle, Statement.doc, Expr.fitted_comma] at hother ⊢
        exact ((hbranch.append (.refl _)).append hother).append (.refl _)
      | some o =>
        simp only [Statement.settle] at hother
        simp only [Statement.settle, Statement.doc, Expr.fitted_comma]
        exact ((hbranch.append (.refl _)).append hother).append (.refl _)
    | ret value =>
      cases value <;>
      · simp only [Statement.settle, Statement.doc, Expr.fitted_comma]
        exact hbranch.append (.refl _)
    | _ =>
      simp only [Statement.settle, Statement.doc, Expr.fitted_comma]
      exact hbranch.append (.refl _)
  | further, .whileLoop test body => by
    simp only [Statement.settle, Statement.doc, Expr.fitted_comma]
    have hheader := (test.same_doc_settle s).header s
    exact (((Doc.Same.refl _).append hheader).append (.refl _)).append
      ((Declaration.same_docs_settles s body).block s)
  | further, .forLoop keyword names collection body bracketed => by
    simp only [Statement.settle, Statement.doc, Expr.fitted_comma]
    have hbody := (Declaration.same_docs_settles s body).block s
    exact ((((Doc.Same.refl _).append (collection.same_doc_settle s)).append (.refl _)).append
      (.refl _)).append hbody
  | further, .throw value => by
    simp only [Statement.settle, Statement.doc, Expr.fitted_comma]
    exact ((Doc.Same.refl _).append (value.same_doc_settle s)).append (.refl _)
  | further, .ret none => .refl _
  | further, .ret (some value) => by
    simp only [Statement.settle, Statement.doc, Expr.fitted_comma]
    exact ((Doc.Same.refl _).append (value.same_doc_settle s)).append (.refl _)
  | further, .expr value => by
    have hvalue := value.same_doc_settle s
    simp only [Statement.settle, Statement.doc, Expr.fitted_comma]
    refine Doc.Same.append ?_ (.refl _)
    split
    · rw [if_neg (by simp [Expr.isAmbiguous_enclosed])]
      exact (Expr.same_doc_enclosed s _).trans (((Doc.Same.refl _).append hvalue).append (.refl _))
    · next h =>
      rw [if_neg (by rwa [Expr.isAmbiguous_settle])]
      exact hvalue
  | further, .block body => by
    simp only [Statement.settle, Statement.doc]
    exact (Declaration.same_docs_settles s body).block s

/-- Nor does `Declaration.settle`. -/
theorem Declaration.same_doc_settle (s : Surface) : ∀ x : Declaration,
    ((x.settle s).doc s).Same (x.doc s)
  | .function name params body exported isAsync => by
    simp only [Declaration.settle, Declaration.doc]
    exact (Doc.Same.refl _).append ((Declaration.same_docs_settles s body).block s)
  | .var keyword name none exported => .refl _
  | .var keyword name (some value) exported => by
    simp only [Declaration.settle, Declaration.doc]
    exact ((Doc.Same.refl _).append ((value.same_doc_settle s).fitted_settle _)).append (.refl _)
  | .vars keyword names value exported => by
    simp only [Declaration.settle, Declaration.doc]
    exact ((Doc.Same.refl _).append ((value.same_doc_settle s).fitted_settle _)).append (.refl _)
  | .statement st => by
    simp only [Declaration.settle, Declaration.doc]
    exact (Doc.Same.refl _).append (Statement.same_doc_settle s false st)
  | .comments _ => .refl _

theorem Declaration.same_docs_settles (s : Surface) : ∀ xs : List Declaration,
    (Declaration.docs s (Declaration.settles s xs)).Same (Declaration.docs s xs)
  | [] => .refl _
  | x :: xs => by
    simp only [Declaration.settles, Declaration.docs]
    exact (x.same_doc_settle s).append (Declaration.same_docs_settles s xs)

end

/-! ## Settled trees -/

/-- A node that `settle` leaves as it is: it is read as what it is where it stands. A member
after a point is no node, so its form is asked for here. -/
def Node.Settled (s : Surface) : Node → Prop
  | .expr (.binary op _ right) => op = .dot → ∃ name, right = .symbol name
  | .expr (.arrow _ body) => body.readsAsBlock s = false
  | .statement (.expr value) => value.isAmbiguous s = false
  | _ => True

section

variable (s : Surface)

mutual

/-- `Expr.settle` leaves an expression as it is if all its nodes are `Node.Settled`. -/
theorem Expr.settle_of_allSettled : ∀ e : Expr, AllNodes (Node.Settled s) e.nodes → e.settle s = e
  | .symbol _, _ | .literal _, _ => rfl
  | .grouping inner, h => by
    rw [Expr.settle, Expr.settle_of_allSettled inner (allNodes_cons.1 h).2]
  | .unary op operand, h => by
    rw [Expr.settle, Expr.settle_of_allSettled operand (allNodes_cons.1 h).2]
  | .step op operand, h => by
    rw [Expr.settle, Expr.settle_of_allSettled operand (allNodes_cons.1 h).2]
  | .binary op left right, h => by
    have ⟨hnode, hparts⟩ := allNodes_cons.1 h
    have ⟨hleft, hright⟩ := allNodes_append.1 hparts
    have ihl := Expr.settle_of_allSettled left hleft
    -- the right operand of a point is no node of its own, but it is a name
    by_cases hdot : op = .dot
    · obtain ⟨name, rfl⟩ := hnode hdot
      rw [Expr.settle, ihl, Expr.settle]
    · rw [if_neg hdot] at hright
      rw [Expr.settle, ihl, Expr.settle_of_allSettled right hright]
  | .ternary test yes no, h => by
    have ⟨hfirst, hno⟩ := allNodes_append.1 (allNodes_cons.1 h).2
    have ⟨htest, hyes⟩ := allNodes_append.1 hfirst
    rw [Expr.settle, Expr.settle_of_allSettled test htest, Expr.settle_of_allSettled yes hyes,
      Expr.settle_of_allSettled no hno]
  | .call callee arguments, h => by
    have ⟨hcallee, harguments⟩ := allNodes_append.1 (allNodes_cons.1 h).2
    rw [Expr.settle, Expr.settle_of_allSettled callee hcallee,
      Expr.settle_of_allSettled arguments harguments]
  | .index target position, h => by
    have ⟨htarget, hposition⟩ := allNodes_append.1 (allNodes_cons.1 h).2
    rw [Expr.settle, Expr.settle_of_allSettled target htarget,
      Expr.settle_of_allSettled position hposition]
  | .object es, h => by
    rw [Expr.settle, Entry.settles_of_allSettled es (allNodes_cons.1 h).2]
  | .array es, h => by
    rw [Expr.settle, Expr.settles_of_allSettled es (allNodes_cons.1 h).2]
  | .list es comma, h => by
    rw [Expr.settle, Expr.settles_of_allSettled es (allNodes_cons.1 h).2]
  | .function name params body, h => by
    rw [Expr.settle, Declaration.settles_of_allSettled body (allNodes_cons.1 h).2]
  | .arrow params body, h => by
    have ⟨hnode, hbody⟩ := allNodes_cons.1 h
    have hblock : body.readsAsBlock s = false := hnode
    rw [Expr.settle, if_neg (by simp [hblock]), Expr.settle_of_allSettled body hbody]
  | .arrowBlock params body, h => by
    rw [Expr.settle, Declaration.settles_of_allSettled body (allNodes_cons.1 h).2]

theorem Expr.settles_of_allSettled : ∀ es : List Expr, AllNodes (Node.Settled s) (Expr.nodesOf es) →
    Expr.settles s es = es
  | [], _ => rfl
  | e :: es, h => by
    have ⟨he, hes⟩ := allNodes_append.1 h
    rw [Expr.settles, Expr.settle_of_allSettled e he, Expr.settles_of_allSettled es hes]

theorem Entry.settles_of_allSettled : ∀ es : List Entry,
    AllNodes (Node.Settled s) (Entry.nodesOf es) →
    Entry.settles s es = es
  | [], _ => rfl
  | .shorthand key :: es, h => by
    rw [Entry.settles, Entry.settle, Entry.settles_of_allSettled es (allNodes_append.1 h).2]
  | .pair key value :: es, h => by
    have ⟨he, hes⟩ := allNodes_append.1 h
    rw [Entry.settles, Entry.settle, Expr.settle_of_allSettled value (allNodes_cons.1 he).2,
      Entry.settles_of_allSettled es hes]

/-- So does `Statement.settle` a statement. -/
theorem Statement.settle_of_allSettled : ∀ st : Statement, AllNodes (Node.Settled s) st.nodes →
    st.settle s = st
  | .ifThen test body none, h => by
    have ⟨htest, hbody⟩ := allNodes_append.1 (allNodes_cons.1 h).2
    rw [Statement.settle, Expr.settle_of_allSettled test htest,
      Declaration.settles_of_allSettled body hbody]
  | .ifThen test body (some other), h => by
    have ⟨hfirst, hother⟩ := allNodes_append.1 (allNodes_cons.1 h).2
    have ⟨htest, hbody⟩ := allNodes_append.1 hfirst
    rw [Statement.settle, Expr.settle_of_allSettled test htest,
      Declaration.settles_of_allSettled body hbody, Statement.settle_of_allSettled other hother]
  | .whileLoop test body, h => by
    have ⟨htest, hbody⟩ := allNodes_append.1 (allNodes_cons.1 h).2
    rw [Statement.settle, Expr.settle_of_allSettled test htest,
      Declaration.settles_of_allSettled body hbody]
  | .forLoop keyword names collection body bracketed, h => by
    have ⟨hcollection, hbody⟩ := allNodes_append.1 (allNodes_cons.1 h).2
    rw [Statement.settle, Expr.settle_of_allSettled collection hcollection,
      Declaration.settles_of_allSettled body hbody]
  | .throw value, h => by
    rw [Statement.settle, Expr.settle_of_allSettled value (allNodes_cons.1 h).2]
  | .ret none, _ => rfl
  | .ret (some value), h => by
    rw [Statement.settle, Expr.settle_of_allSettled value (allNodes_cons.1 h).2]
  | .expr value, h => by
    have ⟨hnode, hvalue⟩ := allNodes_cons.1 h
    have hambiguous : value.isAmbiguous s = false := hnode
    rw [Statement.settle, if_neg (by simp [hambiguous]), Expr.settle_of_allSettled value hvalue]
  | .block body, h => by
    rw [Statement.settle, Declaration.settles_of_allSettled body (allNodes_cons.1 h).2]

/-- So does `Declaration.settle` a declaration. -/
theorem Declaration.settle_of_allSettled : ∀ x : Declaration, AllNodes (Node.Settled s) x.nodes →
    x.settle s = x
  | .function name params body exported isAsync, h => by
    rw [Declaration.settle, Declaration.settles_of_allSettled body (allNodes_cons.1 h).2]
  | .var keyword name none exported, _ => rfl
  | .var keyword name (some value) exported, h => by
    rw [Declaration.settle, Expr.settle_of_allSettled value (allNodes_cons.1 h).2]
  | .vars keyword names value exported, h => by
    rw [Declaration.settle, Expr.settle_of_allSettled value (allNodes_cons.1 h).2]
  | .statement st, h => by
    rw [Declaration.settle, Statement.settle_of_allSettled st (allNodes_cons.1 h).2]
  | .comments _, _ => rfl

/-- So does `Declaration.settles` a block: the tree is read back as it is. -/
theorem Declaration.settles_of_allSettled : ∀ xs : List Declaration,
    AllNodes (Node.Settled s) (Declaration.nodesOf xs) → Declaration.settles s xs = xs
  | [], _ => rfl
  | x :: xs, h => by
    have ⟨hx, hxs⟩ := allNodes_append.1 h
    rw [Declaration.settles, Declaration.settle_of_allSettled x hx,
      Declaration.settles_of_allSettled xs hxs]

end

end

end Diglot

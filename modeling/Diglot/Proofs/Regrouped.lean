import Diglot.Proofs.Ungrouped

/-!
# Parentheses as nodes

An expression that is put together by hand may have operands that bind less strongly than their
places ask for. Printing writes these in parentheses, which are no nodes of the tree. Here they are
made nodes: the regrouped tree has a pair of parentheses where printing adds one, so it is printed
as the tree it comes from, and the two are the same without parentheses.

- `Expr.fit`: an expression in parentheses if its place asks for them.
- `Expr.regroup`, `Entry.regroup`: trees with the parentheses that printing adds.
- `Expr.doc_regroup`: regrouping does not change what is printed.
- `Expr.ungroup_regroup`: regrouping adds nothing but parentheses.
- `Expr.readsAsBlock_fit_regroup`: parentheses at the front hide what would begin a block.
-/

namespace Diglot

/-- An expression where an operand of at least some strength is asked for. `Expr.fitted` is the
same of documents. -/
def Expr.fit (required : Precedence) (e : Expr) : Expr :=
  if e.precedence < required then .grouping e else e

/-- The strength that an operator before an operand asks of it, as `BinaryOp.required` has it
for two. -/
def UnaryOp.required : UnaryOp → Precedence
  | .new => .member
  | _ => .unary

mutual

/-- An expression with the parentheses that printing adds to it. The bodies of functions are left as
they are. -/
def Expr.regroup (s : Surface) : Expr → Expr
  | .symbol name => .symbol name
  | .literal value => .literal value
  | .grouping inner => .grouping (inner.regroup s)
  | .unary op operand => .unary op ((operand.regroup s).fit op.required)
  | .step op operand => .step op ((operand.regroup s).fit (.step + 1))
  | .binary .new left right => .binary .new ((left.regroup s).fit .member) (right.regroup s)
  | .binary .dot left right => .binary .dot ((left.regroup s).fit .member) right
  | .binary op left right =>
    .binary op ((left.regroup s).fit op.required.1) ((right.regroup s).fit op.required.2)
  | .ternary test yes no =>
    .ternary ((test.regroup s).fit (.ternary + 1)) ((yes.regroup s).fit .assignment)
      ((no.regroup s).fit .assignment)
  | .call callee arguments => .call ((callee.regroup s).fit .member) (arguments.regroup s)
  | .index target position => .index ((target.regroup s).fit .member) (position.regroup s)
  | .object es => .object (Entry.regroups s es)
  | .list es trailingComma => .list (Expr.regroups s es) trailingComma
  | .array es => .array (Expr.regroups s es)
  | .function name params body => .function name params body
  | .arrow params body =>
    .arrow params (if body.readsAsBlock s then .grouping (body.regroup s)
      else (body.regroup s).fit .assignment)
  | .arrowBlock params body => .arrowBlock params body

/-- Several elements with the parentheses that printing adds to them. -/
def Expr.regroups (s : Surface) : List Expr → List Expr
  | [] => []
  | e :: es => (e.regroup s).fit .assignment :: Expr.regroups s es

/-- An object entry with the parentheses that printing adds to it. -/
def Entry.regroup (s : Surface) : Entry → Entry
  | .shorthand key => .shorthand key
  | .pair key value => .pair key ((value.regroup s).fit .assignment)

/-- Several object entries with the parentheses that printing adds to them. -/
def Entry.regroups (s : Surface) : List Entry → List Entry
  | [] => []
  | e :: es => e.regroup s :: Entry.regroups s es

end

/-! ## Shapes -/

theorem BinaryOp.required_le_atom (op : BinaryOp) :
    op.required.1 ≤ .atom ∧ op.required.2 ≤ .atom := by
  cases op <;> decide

namespace Expr

variable {s : Surface} {required : Precedence}

theorem fit_of_le {e : Expr} (h : required ≤ e.precedence) : e.fit required = e := by
  rw [fit, if_neg (Nat.not_lt.2 h)]

theorem fit_of_lt {e : Expr} (h : e.precedence < required) : e.fit required = .grouping e := by
  rw [fit, if_pos h]

/-- What `fit` puts in a place binds as strongly as the place asks for. -/
theorem le_precedence_fit (hrequired : required ≤ .atom) (e : Expr) :
    required ≤ (e.fit required).precedence := by
  by_cases h : e.precedence < required
  · rw [fit_of_lt h]
    exact hrequired
  · rwa [fit_of_le (Nat.not_lt.1 h), ← Nat.not_lt]

/-- No place that asks for more than an `assignment` holds an arrow function. -/
theorem isArrow_fit (hatom : required ≤ .atom) (h : .assignment < required) (e : Expr) :
    (e.fit required).isArrow = false := by
  cases ho : (e.fit required).isArrow with
  | false => rfl
  | true =>
    have hle := le_precedence_fit hatom e
    rw [precedence_of_isArrow ho] at hle
    exact absurd h (Nat.not_lt.2 hle)

/-- Regrouping happens inside an expression, so what it is to its own place stays: its strength
here, and its shape in the lemmas below. -/
@[simp] theorem precedence_regroup (e : Expr) : (e.regroup s).precedence = e.precedence := by
  cases e with
  | binary op left right => cases op <;> rfl
  | _ => rfl

@[simp] theorem isList_regroup (e : Expr) : (e.regroup s).isList = e.isList := by
  cases e with
  | binary op left right => cases op <;> rfl
  | _ => rfl

theorem member_le_precedence_of_isSymbolPath {e : Expr} (h : e.isSymbolPath = true) :
    .member ≤ e.precedence := by
  cases e with
  | symbol name => exact Nat.le_of_ble_eq_true rfl
  | binary op left right => cases op <;> first | exact Nat.le_refl _ | cases h
  | _ => cases h

/-- A path is put in no parentheses after `new`, and nothing in parentheses is a path. -/
@[simp] theorem isSymbolPath_fit_member (e : Expr) :
    (e.fit .member).isSymbolPath = e.isSymbolPath := by
  by_cases h : e.precedence < .member
  · rw [fit_of_lt h]
    cases hpath : e.isSymbolPath with
    | false => rfl
    | true => exact absurd (member_le_precedence_of_isSymbolPath hpath) (Nat.not_le.2 h)
  · rw [fit_of_le (Nat.not_lt.1 h)]

@[simp] theorem isSymbolPath_regroup (e : Expr) :
    (e.regroup s).isSymbolPath = e.isSymbolPath := by
  induction e using isSymbolPath.induct with
  | case1 name => rfl
  | case2 left right ih => simp only [regroup, isSymbolPath, isSymbolPath_fit_member, ih]
  | case3 e hsymbol hdot =>
    cases e with
    | symbol name => exact absurd rfl (hsymbol name)
    | binary op left right => cases op <;> first | rfl | exact absurd rfl (hdot left right)
    | _ => rfl

/-- Where an operator runs into the one that its operand begins with, the operand has no
parentheses, so `UnaryOp.gap` stays. -/
theorem gap_fit_regroup (op : UnaryOp) (e : Expr) :
    op.gap ((e.regroup s).fit .unary) = op.gap e := by
  have hmerges : op.mergesWith ((e.regroup s).fit .unary) = op.mergesWith e := by
    by_cases h : e.precedence < .unary
    · rw [fit_of_lt (by simpa using h)]
      cases e with
      | unary op' operand =>
        have hunary : ¬op'.precedence < .unary := by cases op' <;> decide
        exact absurd h hunary
      | _ => cases op <;> rfl
    · rw [fit_of_le (by simpa using h)]
      cases e with
      | unary op' operand => cases op <;> cases op' <;> rfl
      | binary op' left right => cases op <;> cases op' <;> rfl
      | _ => cases op <;> rfl
  rw [UnaryOp.gap, UnaryOp.gap, hmerges]

/-- A tree begins with an object if it does so with the parentheses that `regroup` adds. -/
theorem isObject_leftmost_regroup (e : Expr) (h : (e.regroup s).leftmost.isObject = true) :
    e.leftmost.isObject = true := by
  -- parentheses are no object, so an operand that begins with one has none around it
  have hfit : ∀ {required : Precedence} {e : Expr}, (e.fit required).leftmost.isObject = true →
      e.leftmost.isObject = true := by
    intro required e h
    unfold fit at h
    split at h
    · cases h
    · exact h
  induction e using leftmost.induct with
  | case1 left right => cases h
  | case2 op left right hnew ih =>
    cases op <;> first | exact absurd rfl hnew | exact ih (hfit h)
  | case3 test yes no ih => exact ih (hfit h)
  | case4 callee arguments ih => exact ih (hfit h)
  | case5 target position ih => exact ih (hfit h)
  | case6 op operand ih => exact ih (hfit h)
  | case7 e hnew hbinary hternary hcall hindex hstep =>
    cases e with
    | object es => rfl
    | binary op left right => exact absurd rfl (hbinary op left right)
    | ternary test yes no => exact absurd rfl (hternary test yes no)
    | call callee arguments => exact absurd rfl (hcall callee arguments)
    | index target position => exact absurd rfl (hindex target position)
    | step op operand => exact absurd rfl (hstep op operand)
    | _ => cases h

/-- Parentheses at the front hide what would begin a block, so `readsAsBlock` does not come to
hold. -/
theorem readsAsBlock_fit_regroup (required : Precedence) {e : Expr}
    (h : e.readsAsBlock s = false) : ((e.regroup s).fit required).readsAsBlock s = false := by
  unfold fit
  split
  · rfl
  · rw [readsAsBlock_eq, Bool.and_eq_false_iff] at h ⊢
    refine h.imp_left fun hobject => ?_
    cases hregroup : (e.regroup s).leftmost.isObject with
    | false => rfl
    | true => rw [e.isObject_leftmost_regroup hregroup] at hobject; cases hobject

/-! ## Documents -/

/-- Parentheses that `fit` makes a node are written as those that `fitted` adds. -/
theorem fitted_fit_regroup {e : Expr} (ih : (e.regroup s).doc s = e.doc s)
    (hrequired : required ≤ .atom) :
    ((e.regroup s).fit required).fitted required (((e.regroup s).fit required).doc s) =
      e.fitted required (e.doc s) := by
  rw [fitted_of_le (le_precedence_fit hrequired _)]
  by_cases h : e.precedence < required
  · rw [fit_of_lt (by simpa using h), Expr.doc, fitted_comma, ih, fitted, if_pos h]
  · rw [fit_of_le (by simpa using h), ih, fitted_of_le (Nat.not_lt.1 h)]

end Expr

mutual

/-- `regroup` does not change what is printed. -/
theorem Expr.doc_regroup (s : Surface) : ∀ e : Expr, (e.regroup s).doc s = e.doc s
  | .symbol _ | .literal _ | .function .. | .arrowBlock .. => rfl
  | .grouping inner => by
    rw [Expr.regroup, Expr.doc, Expr.doc, Expr.fitted_comma, Expr.fitted_comma, inner.doc_regroup s]
  | .unary op operand => by
    have ih := operand.doc_regroup s
    cases op with
    | new =>
      have hmember : Precedence.member ≤ .atom := by decide
      simp only [Expr.regroup, UnaryOp.required, Expr.doc, Expr.isSymbolPath_fit_member,
        Expr.isSymbolPath_regroup, Expr.fitted_fit_regroup ih hmember]
    | _ =>
      have hunary : Precedence.unary ≤ .atom := by decide
      simp only [Expr.regroup, UnaryOp.required, Expr.doc, Expr.gap_fit_regroup,
        Expr.fitted_fit_regroup ih hunary]
  | .step op operand => by
    have ih := operand.doc_regroup s
    rw [Expr.regroup, Expr.doc, Expr.doc, Expr.fitted_fit_regroup ih (by decide)]
  | .binary op left right => by
    have hmember : Precedence.member ≤ .atom := by decide
    have ihl := left.doc_regroup s
    have ihr := right.doc_regroup s
    cases op with
    | new =>
      simp only [Expr.regroup, Expr.doc, Expr.isSymbolPath_fit_member, Expr.isSymbolPath_regroup,
        Expr.isList_regroup, Expr.fitted_fit_regroup ihl hmember, ihr]
    | dot =>
      cases right <;> simp only [Expr.regroup, Expr.doc, Expr.fitted_fit_regroup ihl hmember]
    | _ =>
      simp only [Expr.regroup, Expr.doc,
        Expr.fitted_fit_regroup ihl (BinaryOp.required_le_atom _).1,
        Expr.fitted_fit_regroup ihr (BinaryOp.required_le_atom _).2]
  | .ternary test yes no => by
    rw [Expr.regroup, Expr.doc, Expr.doc, Expr.fitted_fit_regroup (test.doc_regroup s) (by decide),
      Expr.fitted_fit_regroup (yes.doc_regroup s) (by decide),
      Expr.fitted_fit_regroup (no.doc_regroup s) (by decide)]
  | .call callee arguments => by
    rw [Expr.regroup, Expr.doc, Expr.doc, Expr.isList_regroup,
      Expr.fitted_fit_regroup (callee.doc_regroup s) (by decide), arguments.doc_regroup s]
  | .index target position => by
    rw [Expr.regroup, Expr.doc, Expr.doc, Expr.fitted_comma, Expr.fitted_comma,
      Expr.fitted_fit_regroup (target.doc_regroup s) (by decide), position.doc_regroup s]
  | .object es => by rw [Expr.regroup, Expr.doc, Expr.doc, Entry.docs_regroups s es]
  | .list es comma => by rw [Expr.regroup, Expr.doc, Expr.doc, Expr.docs_regroups s es]
  | .array es => by rw [Expr.regroup, Expr.doc, Expr.doc, Expr.docs_regroups s es]
  | .arrow params body => by
    have ih := body.doc_regroup s
    cases hblock : body.readsAsBlock s with
    | true =>
      -- the parentheses that printing would add are there as a node, so none are added
      have hgrouping : (Expr.grouping (body.regroup s)).readsAsBlock s = false := rfl
      have hatom : Precedence.assignment ≤ (Expr.grouping (body.regroup s)).precedence :=
        Nat.le_of_ble_eq_true rfl
      simp only [Expr.regroup, hblock, if_true, Expr.doc, hgrouping, Bool.false_eq_true, if_false,
        Expr.fitted_of_le hatom, Expr.fitted_comma, ih]
    | false =>
      have hassignment : Precedence.assignment ≤ .atom := by decide
      simp only [Expr.regroup, hblock, Bool.false_eq_true, if_false, Expr.doc,
        Expr.readsAsBlock_fit_regroup .assignment hblock, Expr.fitted_fit_regroup ih hassignment]

theorem Expr.docs_regroups (s : Surface) : ∀ es : List Expr,
    Expr.docs s (Expr.regroups s es) = Expr.docs s es
  | [] => rfl
  | e :: es => by
    rw [Expr.regroups, Expr.docs, Expr.docs, Expr.fitted_fit_regroup (e.doc_regroup s) (by decide),
      Expr.docs_regroups s es]

theorem Entry.docs_regroups (s : Surface) : ∀ es : List Entry,
    Entry.docs s (Entry.regroups s es) = Entry.docs s es
  | [] => rfl
  | .shorthand key :: es => by
    rw [Entry.regroups, Entry.regroup, Entry.docs, Entry.docs, Entry.docs_regroups s es]
  | .pair key value :: es => by
    rw [Entry.regroups, Entry.regroup, Entry.docs, Entry.docs, Entry.docs_regroups s es, Entry.doc,
      Entry.doc, Expr.fitted_fit_regroup (value.doc_regroup s) (by decide)]

end

/-! ## Parentheses alone -/

/-- What `fit` adds is taken off by `ungroup`. -/
theorem Expr.ungroup_fit (required : Precedence) (e : Expr) :
    (e.fit required).ungroup = e.ungroup := by
  unfold Expr.fit
  split <;> rfl

mutual

/-- `regroup` adds nothing but parentheses: `ungroup` takes them off again. -/
theorem Expr.ungroup_regroup (s : Surface) : ∀ e : Expr, (e.regroup s).ungroup = e.ungroup
  | .symbol _ | .literal _ | .function .. | .arrowBlock .. => rfl
  | .grouping inner => by rw [Expr.regroup, Expr.ungroup, Expr.ungroup, inner.ungroup_regroup s]
  | .unary op operand => by
    rw [Expr.regroup, Expr.ungroup, Expr.ungroup, Expr.ungroup_fit, operand.ungroup_regroup s]
  | .step op operand => by
    rw [Expr.regroup, Expr.ungroup, Expr.ungroup, Expr.ungroup_fit, operand.ungroup_regroup s]
  | .binary op left right => by
    have ihl := left.ungroup_regroup s
    have ihr := right.ungroup_regroup s
    cases op <;> simp only [Expr.regroup, Expr.ungroup, Expr.ungroup_fit, ihl, ihr]
  | .ternary test yes no => by
    simp only [Expr.regroup, Expr.ungroup, Expr.ungroup_fit, test.ungroup_regroup s,
      yes.ungroup_regroup s, no.ungroup_regroup s]
  | .call callee arguments => by
    simp only [Expr.regroup, Expr.ungroup, Expr.ungroup_fit, callee.ungroup_regroup s,
      arguments.ungroup_regroup s]
  | .index target position => by
    simp only [Expr.regroup, Expr.ungroup, Expr.ungroup_fit, target.ungroup_regroup s,
      position.ungroup_regroup s]
  | .object es => by rw [Expr.regroup, Expr.ungroup, Expr.ungroup, Entry.ungroups_regroups s es]
  | .list es comma => by rw [Expr.regroup, Expr.ungroup, Expr.ungroup, Expr.ungroups_regroups s es]
  | .array es => by rw [Expr.regroup, Expr.ungroup, Expr.ungroup, Expr.ungroups_regroups s es]
  | .arrow params body => by
    have ih := body.ungroup_regroup s
    rw [Expr.regroup, Expr.ungroup, Expr.ungroup]
    split
    · rw [Expr.ungroup, ih]
    · rw [Expr.ungroup_fit, ih]

theorem Expr.ungroups_regroups (s : Surface) : ∀ es : List Expr,
    Expr.ungroups (Expr.regroups s es) = Expr.ungroups es
  | [] => rfl
  | e :: es => by
    rw [Expr.regroups, Expr.ungroups, Expr.ungroups, Expr.ungroup_fit, e.ungroup_regroup s,
      Expr.ungroups_regroups s es]

theorem Entry.ungroups_regroups (s : Surface) : ∀ es : List Entry,
    Entry.ungroups (Entry.regroups s es) = Entry.ungroups es
  | [] => rfl
  | .shorthand key :: es => by
    rw [Entry.regroups, Entry.regroup, Entry.ungroups, Entry.ungroups, Entry.ungroups_regroups s es]
  | .pair key value :: es => by
    rw [Entry.regroups, Entry.regroup, Entry.ungroups, Entry.ungroups, Entry.ungroup,
      Entry.ungroup, Expr.ungroup_fit, value.ungroup_regroup s, Entry.ungroups_regroups s es]

end

end Diglot

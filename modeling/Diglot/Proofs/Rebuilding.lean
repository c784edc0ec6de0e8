import Diglot.Proofs.Defects

/-!
# Rebuilding a tree

The rules of trees stand in two places: the checked constructors refuse a node that breaks them, and
printing stops at one. A tree can be taken apart and put together again with the checked
constructors, the parts of a node before the node itself. This succeeds exactly where printing does,
and gives the tree back. Only what follows `else` has no constructor that checks it.

- `Expr.rebuild`, `Statement.rebuild`, `Declaration.rebuild`: a tree put together again.
- `Node.Admitted`: what the checked constructors ask of a node.
- `Expr.rebuild_eq_ok_iff`: rebuilding gives the tree back, or nothing.
- `Expr.exists_rebuild_iff_print`: an expression is rebuilt exactly if it is printed.
-/

namespace Diglot

/-- A `Key` as the expression that `Key.ofExpr?` takes. -/
def Key.toExpr : Key → Expr
  | .symbol name => .symbol name
  | .string value text => .literal (.string value text)

mutual

/-- An expression put together again by `Expr.unary?`, `Expr.binary?` and `Expr.call?`, from its
leaves up. -/
def Expr.rebuild : Expr → Except Defect Expr
  | .symbol name => .ok (.symbol name)
  | .literal value => .ok (.literal value)
  | .grouping inner => return .grouping (← inner.rebuild)
  | .unary op operand => do Expr.unary? op (← operand.rebuild)
  | .step op operand => return .step op (← operand.rebuild)
  | .binary op left right => do Expr.binary? op (← left.rebuild) (← right.rebuild)
  | .ternary test yes no => return .ternary (← test.rebuild) (← yes.rebuild) (← no.rebuild)
  | .call callee arguments => do Expr.call? (← callee.rebuild) (← arguments.rebuild)
  | .index target position => return .index (← target.rebuild) (← position.rebuild)
  | .object es => return .object (← Entry.rebuildAll es)
  | .list es trailingComma => return .list (← Expr.rebuildAll es) trailingComma
  | .array es => return .array (← Expr.rebuildAll es)
  | .function name params body => return .function name params (← Declaration.rebuildAll body)
  | .arrow params body => return .arrow params (← body.rebuild)
  | .arrowBlock params body => return .arrowBlock params (← Declaration.rebuildAll body)

/-- Expressions put together again, from left to right. -/
def Expr.rebuildAll : List Expr → Except Defect (List Expr)
  | [] => .ok []
  | e :: es => return (← e.rebuild) :: (← Expr.rebuildAll es)

/-- An object entry put together again by `Entry.ofExpr?`. -/
def Entry.rebuild : Entry → Except Defect Entry
  | .shorthand key => Entry.ofExpr? key.toExpr none
  | .pair key value => do Entry.ofExpr? key.toExpr (some (← value.rebuild))

/-- Object entries put together again, from left to right. -/
def Entry.rebuildAll : List Entry → Except Defect (List Entry)
  | [] => .ok []
  | e :: es => return (← e.rebuild) :: (← Entry.rebuildAll es)

/-- A statement put together again, of which only the expressions are checked. -/
def Statement.rebuild : Statement → Except Defect Statement
  | .ifThen test body none => return .ifThen (← test.rebuild) (← Declaration.rebuildAll body) none
  | .ifThen test body (some other) =>
    return .ifThen (← test.rebuild) (← Declaration.rebuildAll body) (some (← other.rebuild))
  | .whileLoop test body => return .whileLoop (← test.rebuild) (← Declaration.rebuildAll body)
  | .forLoop keyword names collection body bracketed =>
    return .forLoop keyword names (← collection.rebuild) (← Declaration.rebuildAll body) bracketed
  | .throw value => return .throw (← value.rebuild)
  | .ret none => .ok (.ret none)
  | .ret (some value) => return .ret (some (← value.rebuild))
  | .expr value => return .expr (← value.rebuild)
  | .block body => return .block (← Declaration.rebuildAll body)

/-- A declaration put together again. -/
def Declaration.rebuild : Declaration → Except Defect Declaration
  | .function name params body exported isAsync =>
    return .function name params (← Declaration.rebuildAll body) exported isAsync
  | .var keyword name none exported => .ok (.var keyword name none exported)
  | .var keyword name (some value) exported =>
    return .var keyword name (some (← value.rebuild)) exported
  | .vars keyword names value exported =>
    return .vars keyword names (← value.rebuild) exported
  | .statement st => return .statement (← st.rebuild)
  | .comments cs => .ok (.comments cs)

/-- Declarations put together again, from left to right. -/
def Declaration.rebuildAll : List Declaration → Except Defect (List Declaration)
  | [] => .ok []
  | x :: xs => return (← x.rebuild) :: (← Declaration.rebuildAll xs)

end

/-- What the checked constructors ask of a node: `Node.Printable`. They build expressions and
object entries, so nothing is asked of a statement. -/
def Node.Admitted : Node → Prop
  | .expr e => Node.Printable (.expr e)
  | _ => True

/-- `Key.ofExpr?` undoes `Key.toExpr`. -/
theorem Key.ofExpr?_toExpr (key : Key) : Key.ofExpr? key.toExpr = some key := by
  cases key <;> rfl

section Except

variable {ε α β : Type} {x : Except ε α} {b : β}

@[simp] theorem bind_eq_ok_iff {f : α → Except ε β} :
    (x >>= f) = .ok b ↔ ∃ a, x = .ok a ∧ f a = .ok b := by
  cases x <;> simp [bind, Except.bind]

@[simp] theorem map_eq_ok_iff {f : α → β} : (f <$> x) = .ok b ↔ ∃ a, x = .ok a ∧ f a = b := by
  cases x <;> simp [Functor.map, Except.map]

end Except

/-- A name is admitted. -/
theorem Expr.allAdmitted_of_isSymbol {e : Expr} (h : e.isSymbol = true) :
    AllNodes Node.Admitted e.nodes := by
  cases e with
  | symbol name => simp [Expr.nodes, Node.Admitted, Node.Printable]
  | _ => cases h

mutual

/-- `Expr.rebuild` gives an expression back, if all its nodes are `Node.Admitted`, and otherwise
nothing. -/
theorem Expr.rebuild_eq_ok_iff : ∀ (e : Expr) {e' : Expr},
    e.rebuild = .ok e' ↔ AllNodes Node.Admitted e.nodes ∧ e = e'
  | .symbol _, e' | .literal _, e' => by
    simp [Expr.rebuild, Expr.nodes, Node.Admitted, Node.Printable]
  | .grouping inner, e' | .step _ inner, e' | .arrow _ inner, e' => by
    simp [Expr.rebuild, Expr.nodes, Node.Admitted, Node.Printable,
      inner.rebuild_eq_ok_iff, and_assoc]
  | .unary op operand, e' => by
    simp [Expr.rebuild, Expr.nodes, Node.Admitted, Expr.unary?_eq_ok_iff,
      operand.rebuild_eq_ok_iff, and_assoc, and_left_comm]
  | .binary op left right, e' => by
    -- what follows a point is rebuilt, but is no node: the rules admit a name only
    have hright : Node.Printable (.expr (.binary op left right)) →
        (AllNodes Node.Admitted (if op = .dot then [] else right.nodes) ↔
          AllNodes Node.Admitted right.nodes) := by
      intro hnode
      split
      · next hdot =>
        subst hdot
        simp [Expr.allAdmitted_of_isSymbol hnode]
      · rfl
    have hparts : (Expr.binary op left right).rebuild = .ok e' ↔ AllNodes Node.Admitted left.nodes ∧
        AllNodes Node.Admitted right.nodes ∧ Node.Printable (.expr (.binary op left right)) ∧
          .binary op left right = e' := by
      simp [Expr.rebuild, Expr.binary?_eq_ok_iff, left.rebuild_eq_ok_iff, right.rebuild_eq_ok_iff,
        and_assoc]
    rw [hparts, Expr.nodes, allNodes_cons, allNodes_append]
    constructor
    · rintro ⟨hl, hr, hnode, rfl⟩
      exact ⟨⟨hnode, hl, (hright hnode).2 hr⟩, rfl⟩
    · rintro ⟨⟨hnode, hl, hr⟩, rfl⟩
      exact ⟨hl, (hright hnode).1 hr, hnode, rfl⟩
  | .ternary test yes no, e' => by
    simp [Expr.rebuild, Expr.nodes, Node.Admitted, Node.Printable,
      test.rebuild_eq_ok_iff, yes.rebuild_eq_ok_iff,
      no.rebuild_eq_ok_iff, and_assoc]
  | .call callee arguments, e' => by
    simp [Expr.rebuild, Expr.nodes, Node.Admitted, Expr.call?_eq_ok_iff,
      callee.rebuild_eq_ok_iff, arguments.rebuild_eq_ok_iff, and_assoc,
      and_left_comm]
  | .index target position, e' => by
    simp [Expr.rebuild, Expr.nodes, Node.Admitted, Node.Printable,
      target.rebuild_eq_ok_iff, position.rebuild_eq_ok_iff, and_assoc]
  | .object es, e' => by
    simp [Expr.rebuild, Expr.nodes, Node.Admitted, Node.Printable,
      Entry.rebuildAll_eq_ok_iff es, and_assoc]
  | .list es _, e' | .array es, e' => by
    simp [Expr.rebuild, Expr.nodes, Node.Admitted, Node.Printable,
      Expr.rebuildAll_eq_ok_iff es, and_assoc]
  | .function _ _ body, e' | .arrowBlock _ body, e' => by
    simp [Expr.rebuild, Expr.nodes, Node.Admitted, Node.Printable,
      Declaration.rebuildAll_eq_ok_iff body, and_assoc]

/-- So does `Expr.rebuildAll` with several expressions. -/
theorem Expr.rebuildAll_eq_ok_iff : ∀ (es : List Expr) {es' : List Expr},
    Expr.rebuildAll es = .ok es' ↔ AllNodes Node.Admitted (Expr.nodesOf es) ∧ es = es'
  | [], es' => by simp [Expr.rebuildAll, Expr.nodesOf]
  | e :: es, es' => by
    simp [Expr.rebuildAll, Expr.nodesOf, e.rebuild_eq_ok_iff,
      Expr.rebuildAll_eq_ok_iff es, and_assoc]

/-- So does `Entry.rebuild`, whose key is never refused. -/
theorem Entry.rebuild_eq_ok_iff : ∀ (e : Entry) {e' : Entry},
    e.rebuild = .ok e' ↔ AllNodes Node.Admitted e.nodes ∧ e = e'
  | .shorthand key, e' => by
    simp [Entry.rebuild, Entry.nodes, Node.Admitted, Entry.ofExpr?, Key.ofExpr?_toExpr]
  | .pair key value, e' => by
    simp [Entry.rebuild, Entry.nodes, Node.Admitted, Entry.ofExpr?, Key.ofExpr?_toExpr,
      value.rebuild_eq_ok_iff, and_assoc]

theorem Entry.rebuildAll_eq_ok_iff : ∀ (es : List Entry) {es' : List Entry},
    Entry.rebuildAll es = .ok es' ↔ AllNodes Node.Admitted (Entry.nodesOf es) ∧ es = es'
  | [], es' => by simp [Entry.rebuildAll, Entry.nodesOf]
  | e :: es, es' => by
    simp [Entry.rebuildAll, Entry.nodesOf, e.rebuild_eq_ok_iff,
      Entry.rebuildAll_eq_ok_iff es, and_assoc]

/-- So does `Statement.rebuild`. -/
theorem Statement.rebuild_eq_ok_iff : ∀ (st : Statement) {st' : Statement},
    st.rebuild = .ok st' ↔ AllNodes Node.Admitted st.nodes ∧ st = st'
  | .ifThen test body none, st' | .whileLoop test body, st' => by
    simp [Statement.rebuild, Statement.nodes, Node.Admitted, test.rebuild_eq_ok_iff,
      Declaration.rebuildAll_eq_ok_iff body, and_assoc]
  | .ifThen test body (some other), st' => by
    simp [Statement.rebuild, Statement.nodes, Node.Admitted, test.rebuild_eq_ok_iff,
      Declaration.rebuildAll_eq_ok_iff body, other.rebuild_eq_ok_iff,
      and_assoc]
  | .forLoop _ _ collection body _, st' => by
    simp [Statement.rebuild, Statement.nodes, Node.Admitted,
      collection.rebuild_eq_ok_iff, Declaration.rebuildAll_eq_ok_iff body,
      and_assoc]
  | .throw value, st' | .ret (some value), st' | .expr value, st' => by
    simp [Statement.rebuild, Statement.nodes, Node.Admitted, value.rebuild_eq_ok_iff,
      and_assoc]
  | .ret none, st' => by simp [Statement.rebuild, Statement.nodes, Node.Admitted]
  | .block body, st' => by
    simp [Statement.rebuild, Statement.nodes, Node.Admitted,
      Declaration.rebuildAll_eq_ok_iff body, and_assoc]

/-- So does `Declaration.rebuild`. -/
theorem Declaration.rebuild_eq_ok_iff : ∀ (x : Declaration) {x' : Declaration},
    x.rebuild = .ok x' ↔ AllNodes Node.Admitted x.nodes ∧ x = x'
  | .function _ _ body _ _, x' => by
    simp [Declaration.rebuild, Declaration.nodes, Node.Admitted,
      Declaration.rebuildAll_eq_ok_iff body, and_assoc]
  | .var _ _ none _, x' | .comments _, x' => by
    simp [Declaration.rebuild, Declaration.nodes, Node.Admitted]
  | .var _ _ (some value) _, x' | .vars _ _ value _, x' => by
    simp [Declaration.rebuild, Declaration.nodes, Node.Admitted,
      value.rebuild_eq_ok_iff, and_assoc]
  | .statement st, x' => by
    simp [Declaration.rebuild, Declaration.nodes, Node.Admitted,
      st.rebuild_eq_ok_iff, and_assoc]

theorem Declaration.rebuildAll_eq_ok_iff : ∀ (xs : List Declaration) {xs' : List Declaration},
    Declaration.rebuildAll xs = .ok xs' ↔ AllNodes Node.Admitted (Declaration.nodesOf xs) ∧ xs = xs'
  | [], xs' => by simp [Declaration.rebuildAll, Declaration.nodesOf]
  | x :: xs, xs' => by
    simp [Declaration.rebuildAll, Declaration.nodesOf, x.rebuild_eq_ok_iff,
      Declaration.rebuildAll_eq_ok_iff xs, and_assoc]

end

/-- Where only an `isBranch` follows `else`, `Node.Printable` asks for no more than
`Node.Admitted`. -/
theorem allPrintable_iff_allAdmitted {ns : List Node}
    (h : ∀ test body other, .statement (.ifThen test body (some other)) ∈ ns →
      other.isBranch = true) : AllNodes Node.Printable ns ↔ AllNodes Node.Admitted ns := by
  have hnode : ∀ n ∈ ns, (n.Printable ↔ n.Admitted) := by
    intro n hn
    match n with
    | .expr e => exact Iff.rfl
    | .statement (.ifThen test body (some other)) =>
      exact ⟨fun _ => trivial, fun _ => h test body other hn⟩
    | .statement (.ifThen _ _ none) | .statement (.whileLoop ..) | .statement (.forLoop ..)
    | .statement (.throw _) | .statement (.ret _) | .statement (.expr _) | .statement (.block _)
    | .entry _ | .declaration _ => exact Iff.rfl
  exact ⟨fun hall n hn => (hnode n hn).1 (hall n hn), fun hall n hn => (hnode n hn).2 (hall n hn)⟩

/-- **The constructors and the printer follow the same rules**: an expression in which only
conditionals and blocks follow `else` can be put together again by the checked constructors exactly
if it can be printed, in either dialect, and it is then the same expression. -/
theorem Expr.exists_rebuild_iff_print {e : Expr}
    (h : ∀ test body other, .statement (.ifThen test body (some other)) ∈ e.nodes →
      other.isBranch = true) (d : Dialect) :
    ((∃ e', e.rebuild = .ok e') ↔ ∃ text, printExpr d e = .ok text) ∧
      ∀ e', e.rebuild = .ok e' → e' = e := by
  refine ⟨?_, fun e' he' => (e.rebuild_eq_ok_iff.1 he').2.symm⟩
  rw [exists_printExpr_iff, allPrintable_iff_allAdmitted h]
  simp [e.rebuild_eq_ok_iff]

/-- A call is rebuilt and printed, with a chain of conditionals among its arguments. With a path in
place of its list of arguments it is neither. -/
theorem Expr.exists_rebuild_iff_print_chain :
    ∃ chain call wrong : Expr,
      chain = .arrowBlock [] [.statement (.ifThen (.symbol "a") []
        (some (.ifThen (.symbol "b") [] (some (.block [])))))] ∧
      call = .call (.symbol "f") (.list [chain, .object [.pair (.string "'k'" "'k'")
        (.binary .new (.symbol "A") (.list [] false)), .shorthand (.symbol "x")]] true) ∧
      wrong = .array [.call chain (.binary .dot (.symbol "a") (.symbol "b"))] ∧
      call.rebuild = .ok call ∧ (∃ text, printExpr .block call = .ok text) ∧
      wrong.rebuild = .error .callArguments ∧ ¬∃ text, printExpr .block wrong = .ok text := by
  have hbranches : ∀ (test : Expr) (body : Block) (other : Statement),
      test = .symbol "a" ∧ body = [] ∧ other = .ifThen (.symbol "b") [] (some (.block [])) ∨
        test = .symbol "b" ∧ body = [] ∧ other = .block [] → other.isBranch = true := by
    rintro _ _ _ (⟨-, -, rfl⟩ | ⟨-, -, rfl⟩) <;> rfl
  refine ⟨_, _, _, rfl, rfl, rfl, rfl, ?_, rfl, ?_⟩
  · refine (Expr.exists_rebuild_iff_print ?_ .block).1.1 ⟨_, rfl⟩
    simpa [Expr.nodes, Expr.nodesOf, Entry.nodesOf, Entry.nodes, Declaration.nodesOf,
      Declaration.nodes, Statement.nodes] using hbranches
  · rw [← (Expr.exists_rebuild_iff_print ?_ .block).1]
    · rintro ⟨_, ⟨⟩⟩
    · simpa [Expr.nodes, Expr.nodesOf, Declaration.nodesOf, Declaration.nodes, Statement.nodes]
        using hbranches

end Diglot

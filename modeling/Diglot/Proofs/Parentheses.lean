import Diglot.Proofs.LoneExpr

/-!
# Parentheses that are not added

Printing puts an expression in parentheses where its place asks for an operand that binds more
strongly, and where a statement or the body of an arrow function would begin with a block. What is
read from a text needs neither in its own dialect: each place of a phrase is read by the rule whose
operands bind as strongly as printing asks for there. So a parsed tree is printed with the
parentheses that it has as nodes, those of lists and arguments, and those of parameters and headers.

- `Node.demands`: the operands of a node, with the strength that printing asks of each.
- `Node.isWrapped`: whether a node is printed in parentheses for the sake of how it begins.
- `Node.Fits`: a node that is printed without added parentheses.
- `Expr.plain`, `Statement.plain`, `Declaration.plain`: documents without added parentheses.
- `Reads.fits`: the nodes of a parsed tree fit.
- `doc_eq_plain_of_parsed`: parsed trees are printed without added parentheses.
-/

namespace Diglot

open Rules

/-! ## What printing asks of operands -/

/-- The operands of a node, each with the strength that `Expr.fitted` asks for in its place when
the node is printed. Arguments and the name after a point are printed as they are. -/
def Node.demands : Node → List (Precedence × Expr)
  | .expr (.grouping inner) => [(.comma, inner)]
  | .expr (.unary .new operand) => [(.member, operand)]
  | .expr (.unary _ operand) => [(.unary, operand)]
  | .expr (.step _ operand) => [(.step + 1, operand)]
  | .expr (.binary .new left _) | .expr (.binary .dot left _) => [(.member, left)]
  | .expr (.binary op left right) => [(op.required.1, left), (op.required.2, right)]
  | .expr (.ternary test yes no) => [(.ternary + 1, test), (.assignment, yes), (.assignment, no)]
  | .expr (.call callee _) => [(.member, callee)]
  | .expr (.index target position) => [(.member, target), (.comma, position)]
  | .expr (.list es _) | .expr (.array es) => es.map fun e => (.assignment, e)
  | .expr (.arrow _ body) => [(.assignment, body)]
  | .entry (.pair _ value) => [(.assignment, value)]
  | .statement (.ifThen e _ _) | .statement (.whileLoop e _) | .statement (.forLoop _ _ e _ _)
  | .statement (.throw e) | .statement (.ret (some e)) | .statement (.expr e) => [(.comma, e)]
  | .declaration (.var _ _ (some value) _) | .declaration (.vars _ _ value _) =>
    [(.assignment, value)]
  | _ => []

/-- Whether what a node holds is put in parentheses because it would begin with a block, as
`readsAsBlock` and `isAmbiguous` tell. -/
def Node.isWrapped (s : Surface) : Node → Bool
  | .expr (.arrow _ body) => body.readsAsBlock s
  | .statement (.expr value) => value.isAmbiguous s
  | _ => false

/-- A node whose operands bind as strongly as its `demands` ask for. -/
def Node.Meets (n : Node) : Prop :=
  ∀ q ∈ n.demands, q.1 ≤ q.2.precedence

/-- A node that is printed without added parentheses. -/
structure Node.Fits (s : Surface) (n : Node) : Prop where
  meets : n.Meets
  notWrapped : n.isWrapped s = false

/-! ## What is read meets it -/

section Operators

variable {k : TokenKind} {op : BinaryOp} {l r : Expr}

/-- An operator `Meets` its demands if the rules that read its sides ask for as much. -/
theorem Node.meets_infix (hk : infixOp? k = some op) (hl : op.required.1 ≤ l.precedence)
    (hr : rightBound op ≤ r.precedence) : Node.Meets (.expr (.binary op l r)) := by
  have hdemands : Node.demands (.expr (.binary op l r)) =
      [(op.required.1, l), (op.required.2, r)] := by
    unfold infixOp? at hk
    split at hk <;> cases hk <;> rfl
  rw [Node.Meets, hdemands, (rightBound_of_infixOp? hk).2.2.1]
  simpa using ⟨hl, hr⟩

/-- An operand with the operators before it may stand before any operator, and before a power
sign if there are none before it, as `isOpenUnary` tells. -/
theorem required_le_of_unary (hk : infixOp? k = some op) (hu : ¬(op = .exp ∧ isOpenUnary l = true))
    (hl : .unary ≤ l.precedence ∧ (isOpenUnary l = false → .step ≤ l.precedence)) :
    op.required.1 ≤ l.precedence := by
  by_cases hexp : op = .exp
  · subst hexp
    exact hl.2 (by simpa using hu)
  · rw [(rightBound_of_infixOp? hk).2.2.2.1 hexp]
    exact Nat.le_trans (rightBound_of_infixOp? hk).2.2.2.2.1 (Nat.le_trans (by decide) hl.1)

theorem Node.meets_assign (hop : op.precedence = .assignment) (hl : .or ≤ l.precedence)
    (hr : .assignment ≤ r.precedence) : Node.Meets (.expr (.binary op l r)) := by
  have hdemands :
      Node.demands (.expr (.binary op l r)) = [(.assignment + 1, l), (.assignment, r)] := by
    cases op <;> first | rfl | exact absurd hop (by decide)
  rw [Node.Meets, hdemands]
  simpa using ⟨Nat.le_trans (by decide) hl, hr⟩

end Operators

/-- What a phrase `Meets`. A phrase that goes on from a tree asks of it what the next node
would. -/
def Phrase.Meets : (φ : Phrase) → Tape → φ.Out → Prop
  | .pathFrom l, _, e =>
    .member ≤ l.precedence → AllNodes Node.Meets l.nodes → AllNodes Node.Meets e.nodes
  | .memberFrom l, _, e =>
    (l.isArrow = false → .member ≤ l.precedence) → AllNodes Node.Meets l.nodes →
      AllNodes Node.Meets e.nodes
  | .climbFrom _ l, S, e =>
    (∀ op, infixOp? S.kind = some op → l.isArrow = false →
      ¬(op = .exp ∧ isOpenUnary l = true) → op.required.1 ≤ l.precedence) →
    AllNodes Node.Meets l.nodes → AllNodes Node.Meets e.nodes
  | .elements _ _, _, (es, _) =>
    AllNodes Node.Meets (Expr.nodesOf es) ∧ ∀ e ∈ es, .assignment ≤ e.precedence
  | φ, _, a => AllNodes Node.Meets φ.earlier → AllNodes Node.Meets (φ.nodes a)

theorem Node.meets_one {n : Node} {required : Precedence} {e : Expr}
    (hn : n.demands = [(required, e)]) (h : required ≤ e.precedence) : n.Meets := by
  rw [Node.Meets, hn]
  simpa using h

/-- Every expression is as strong as a place that a `comma` may stand in asks for. -/
theorem Node.meets_comma {n : Node} {e : Expr} (hn : n.demands = [(.comma, e)]) : n.Meets :=
  Node.meets_one hn e.comma_le_precedence

theorem Node.meets_elements {n : Node} {es : List Expr}
    (hn : n.demands = es.map fun e => (.assignment, e))
    (h : ∀ e ∈ es, .assignment ≤ e.precedence) : n.Meets := by
  rw [Node.Meets, hn]
  simpa using h

theorem allMeet_declare (cs : List Comment) :
    AllNodes Node.Meets (Declaration.nodesOf (Comment.declare cs)) := by
  cases cs with
  | nil => exact allNodes_nil
  | cons c cs => exact allNodes_cons.2 ⟨nofun, allNodes_nil⟩

/-- **Operands that are read bind as strongly as printing asks for**: whatever phrase is read,
it `Meets` the demands. -/
theorem Reads.meets {d : Dialect} {φ : Phrase} {S S' : Tape} {a : φ.Out}
    (h : Reads d φ S a S') : φ.Meets S a := by
  induction h with
  | arguments _ _ _ ih => exact fun _ => allNodes_cons.2 ⟨Node.meets_elements rfl ih.2, ih.1⟩
  | array _ _ _ ih => exact fun _ => allNodes_cons.2 ⟨Node.meets_elements rfl ih.2, ih.1⟩
  | grouping _ _ ih =>
    intro _
    have hinner := (allNodes_cons.1 (ih allNodes_nil)).2
    exact allNodes_cons.2 ⟨Node.meets_comma rfl, by simpa [Expr.nodesOf] using hinner⟩
  | list _ _ _ _ ih => exact ih
  | object _ _ _ ih => exact fun h => allNodes_cons.2 ⟨nofun, ih h⟩
  | functionNamed _ _ _ _ _ ih | functionBare _ _ _ _ _ ih =>
    exact fun h => allNodes_cons.2 ⟨nofun, ih h⟩
  | arrow _ _ _ hb _ ih =>
    exact fun _ => allNodes_cons.2 ⟨Node.meets_one rfl hb.binds, ih allNodes_nil⟩
  -- what goes on from a value
  | pathEnd _ => exact fun _ hnodes => hnodes
  | pathMore _ _ _ _ ih =>
    intro hl hnodes
    refine ih (Nat.le_refl _) ?_
    simpa [Expr.nodes] using ⟨Node.meets_one rfl hl, hnodes⟩
  | memberEnd _ => exact fun _ hnodes => hnodes
  | memberCall ho _ _ iha ih =>
    intro hl hnodes
    refine ih (fun _ => Nat.le_refl _) ?_
    simpa [Expr.nodes] using ⟨Node.meets_one rfl (hl ho), hnodes, iha allNodes_nil⟩
  | @memberIndex _ _ _ _ _ e p _ ho _ _ _ _ ihp ih =>
    intro hl hnodes
    have hnode : Node.Meets (.expr (.index e p)) := by
      simpa [Node.Meets, Node.demands] using ⟨hl ho, p.comma_le_precedence⟩
    refine ih (fun _ => Nat.le_refl _) ?_
    simpa [Expr.nodes] using ⟨hnode, hnodes, ihp allNodes_nil⟩
  | memberDot ho _ _ _ _ ih =>
    intro hl hnodes
    refine ih (fun _ => Nat.le_refl _) ?_
    simpa [Expr.nodes] using ⟨Node.meets_one rfl (hl ho), hnodes⟩
  | newBare _ _ ht _ ih =>
    intro _
    have hname : Precedence.member ≤ Precedence.atom := by decide
    have htarget := ih hname (allNodes_cons.2 ⟨nofun, allNodes_nil⟩)
    exact allNodes_cons.2 ⟨Node.meets_one rfl (ht.binds hname), htarget⟩
  | newCall _ _ ht _ _ iht iha ih =>
    intro _
    have hname : Precedence.member ≤ Precedence.atom := by decide
    have htarget := iht hname (allNodes_cons.2 ⟨nofun, allNodes_nil⟩)
    refine ih (fun _ => Nat.le_refl _) ?_
    simpa [Expr.nodes] using
      ⟨Node.meets_one rfl (ht.binds hname), htarget, iha allNodes_nil⟩
  | member _ he _ ihe ih =>
    intro _
    exact ih (fun ho => Nat.le_trans (by decide) (he.binds ho)) (ihe allNodes_nil)
  -- operators
  | stepNone _ _ ih | unaryNone _ _ ih | assignmentNone _ _ _ ih => exact ih
  | stepSome he _ _ ho ih =>
    exact fun h => allNodes_cons.2 ⟨Node.meets_one rfl (he.binds ho), ih h⟩
  | @unarySome _ _ _ _ op e _ hk he ho ih =>
    intro h
    have hdemands : Node.demands (.expr (.unary op e)) = [(.unary, e)] := by
      unfold unaryOp? at hk
      split at hk <;> cases hk <;> rfl
    exact allNodes_cons.2 ⟨Node.meets_one hdemands (he.binds ho).1, ih h⟩
  | climbEnd _ => exact fun _ hnodes => hnodes
  | climbMore h hk hb hl hu hr ho hx ihr ihx =>
    intro hbefore hnodes
    have hbound : rightBound _ ≤ Precedence.unary :=
      Nat.le_trans (precedence_of_infixOp? hk).2 (by decide)
    rw [h.kind_eq] at hbefore
    refine ihx (fun op' hk' _ _ => (lt_rightBound_iff hk hk').1 (hr.stops op' hk')) ?_
    have hnode := Node.meets_infix hk (hbefore _ hk hl hu) (hr.binds hbound ho)
    simpa [Expr.nodes, ne_dot_of_infixOp? hk] using ⟨hnode, hnodes, ihr allNodes_nil⟩
  | climb he _ ihe ihx =>
    intro _
    exact ihx (fun op hk hl hu => required_le_of_unary hk hu (he.binds hl)) (ihe allNodes_nil)
  | assignmentSome hl _ _ hop ho hr ihl ihr =>
    intro _
    have hnode := Node.meets_assign hop (hl.binds (by decide) ho) hr.binds
    simpa [Phrase.nodes, Expr.nodes, ne_dot_of_assignment hop] using
      ⟨hnode, ihl allNodes_nil, ihr allNodes_nil⟩
  | @ternary _ _ _ _ _ _ t y n ht _ ho hy _ hn iht ihy ihn =>
    intro _
    have hnode : Node.Meets (.expr (.ternary t y n)) := by
      have htest : Precedence.ternary + 1 ≤ t.precedence := ht.binds (by decide) ho
      simpa [Node.Meets, Node.demands] using ⟨htest, hy.binds, hn.binds⟩
    simpa [Phrase.nodes, Expr.nodes, and_assoc] using
      ⟨hnode, iht allNodes_nil, ihy allNodes_nil, ihn allNodes_nil⟩
  | sequenceEnd _ => exact id
  | @sequenceMore _ _ _ _ l r _ _ hr _ ihr ih =>
    intro hnodes
    have hnode : Node.Meets (.expr (.binary .comma l r)) := by
      have hright : BinaryOp.comma.required.2 ≤ r.precedence := hr.binds
      have hleft : BinaryOp.comma.required.1 ≤ l.precedence := l.comma_le_precedence
      simpa [Node.Meets, Node.demands] using ⟨hleft, hright⟩
    refine ih ?_
    simpa [Phrase.earlier, Expr.nodes] using ⟨hnode, hnodes, ihr allNodes_nil⟩
  | expr _ _ ihe ih => exact fun h => ih (ihe h)
  -- elements and entries
  | elementsNone _ => exact ⟨allNodes_nil, by simp⟩
  | elementsLast _ he _ ih =>
    exact ⟨allNodes_append.2 ⟨ih allNodes_nil, allNodes_nil⟩, List.forall_mem_singleton.2 he.binds⟩
  | elementsMore _ he _ _ ih ihes =>
    exact ⟨allNodes_append.2 ⟨ih allNodes_nil, ihes.1⟩, List.forall_mem_cons.2 ⟨he.binds, ihes.2⟩⟩
  | entryPair _ _ _ hv ih =>
    exact fun h => allNodes_cons.2 ⟨Node.meets_one rfl hv.binds, ih h⟩
  -- statements and declarations
  | varValue _ _ _ _ _ hv _ ih _ | vars _ _ _ _ _ _ _ _ hv _ _ ih _ =>
    exact fun h => allNodes_cons.2 ⟨Node.meets_one rfl hv.binds, ih h⟩
  | _ =>
    simp_all [Phrase.Meets, Phrase.nodes, Phrase.earlier, Expr.nodes, Entry.nodes, Entry.nodesOf,
      Statement.nodes, Declaration.nodes, Declaration.nodesOf, Node.Meets, Node.demands,
      Expr.comma_le_precedence, allMeet_declare]

/-- A node that is `Parsed` is not put in parentheses for the sake of how it begins. -/
theorem Node.Parsed.isWrapped {d : Dialect} {n : Node} (h : n.Parsed d) :
    n.isWrapped d.surface = false := by
  cases n with
  | expr e =>
    cases e with
    | arrow params body => exact h.formed
    | _ => rfl
  | statement st =>
    cases st with
    | expr value => exact h.formed
    | _ => rfl
  | _ => rfl

/-! ## Documents without added parentheses -/

open Print in
mutual

/-- The document of an expression, in which parentheses stand for a node of their own, around
the elements of a list and around parameters only. It is `Expr.doc` without `fitted`. -/
def Expr.plain (s : Surface) : Expr → Doc
  | .symbol name => name
  | .literal value => value.text
  | .grouping inner => "(" ++ inner.plain s ++ ")"
  | .unary .new operand => "new " ++ operand.plain s
  | .unary op operand => op.spelling ++ op.gap operand ++ operand.plain s
  | .step op operand => operand.plain s ++ op.spelling
  | .binary .new left right => "new " ++ left.plain s ++ right.plain s
  | .binary .dot left right => left.plain s ++ "." ++ right.plain s
  | .binary op left right => left.plain s ++ op.infixText ++ right.plain s
  | .ternary test yes no => test.plain s ++ " ? " ++ yes.plain s ++ " : " ++ no.plain s
  | .call callee arguments => callee.plain s ++ arguments.plain s
  | .index target position => target.plain s ++ "[" ++ position.plain s ++ "]"
  | .object es => Doc.laidOut "\x7b" "\x7d" (Entry.plains s es)
  | .array elements => Doc.laidOut "[" "]" (Expr.plains s elements)
  | .list elements trailingComma =>
    "(" ++ Doc.join ", " (Expr.plains s elements) ++ Doc.when trailingComma "," ++ ")"
  | .function name params body =>
    s.functionWord ++ (match name with | some n => " " ++ n | none => (.empty : Doc))
      ++ signature params ++ " " ++ block s (Declaration.plains s body)
  | .arrow params body => arrowHead params ++ body.plain s
  | .arrowBlock params body => arrowHead params ++ block s (Declaration.plains s body)

/-- The documents of the elements of a list. -/
def Expr.plains (s : Surface) : List Expr → List Doc
  | [] => []
  | e :: es => e.plain s :: Expr.plains s es

/-- The document of an object entry. -/
def Entry.plain (s : Surface) : Entry → Doc
  | .shorthand key => key.text
  | .pair key value => key.text ++ ": " ++ value.plain s

/-- The documents of object entries. -/
def Entry.plains (s : Surface) : List Entry → List Doc
  | [] => []
  | e :: es => e.plain s :: Entry.plains s es

/-- The document of a statement. The header of a conditional or a loop has the parentheses that
the `Surface` gives it. -/
def Statement.plain (s : Surface) (further : Bool) : Statement → Doc
  | .ifThen test body none =>
    branch s further (test.plain s) (Declaration.plains s body) ++ conditionalEnd s further
  | .ifThen test body (some (.block other)) =>
    branch s further (test.plain s) (Declaration.plains s body)
      ++ elseBlock s (Declaration.plains s other) ++ conditionalEnd s further
  | .ifThen test body (some other) =>
    branch s further (test.plain s) (Declaration.plains s body)
      ++ beforeElsif s ++ Statement.plain s true other ++ conditionalEnd s further
  | .whileLoop test body =>
    "while " ++ header s (test.plain s) ++ " " ++ block s (Declaration.plains s body)
  | .forLoop keyword ns collection body bracketed =>
    "for " ++ s.headerOpen
      ++ (match keyword with | some k => k.spelling ++ " " | none => (.empty : Doc))
      ++ (if bracketed then "[" ++ names ns ++ "]" else names ns) ++ " of "
      ++ collection.plain s ++ s.headerClose ++ " " ++ block s (Declaration.plains s body)
  | .throw value => "throw " ++ value.plain s ++ ";"
  | .ret none => "return" ++ (";" : Doc)
  | .ret (some value) => "return" ++ (" " : Doc) ++ value.plain s ++ ";"
  | .expr value => value.plain s ++ ";"
  | .block body => block s (Declaration.plains s body)

/-- The document of a declaration. -/
def Declaration.plain (s : Surface) : Declaration → Doc
  | .function name params body exported isAsync =>
    Doc.lineFeed ++ Doc.freshLine ++ exportWord exported
      ++ Doc.when isAsync "async " ++ s.functionWord ++ " " ++ name
      ++ signature params ++ " " ++ block s (Declaration.plains s body)
  | .var keyword name none exported =>
    Doc.freshLine ++ exportWord exported ++ keyword.spelling ++ " " ++ name ++ ";"
  | .var keyword name (some value) exported =>
    Doc.freshLine ++ exportWord exported ++ keyword.spelling ++ " " ++ name ++ " = "
      ++ value.plain s ++ ";"
  | .vars keyword ns value exported =>
    Doc.freshLine ++ exportWord exported ++ keyword.spelling ++ " [" ++ names ns ++ "] = "
      ++ value.plain s ++ ";"
  | .statement st => Doc.freshLine ++ Statement.plain s false st
  | .comments cs => comments cs

/-- The documents of declarations, one after the other. -/
def Declaration.plains (s : Surface) : List Declaration → Doc
  | [] => .empty
  | x :: xs => x.plain s ++ Declaration.plains s xs

end

/-- A node of a parsed tree that is printed without added parentheses: it `Fits`. -/
structure Node.Plain (d : Dialect) (n : Node) : Prop where
  formed : n.Formed d
  fits : n.Fits d.surface

section Plain

variable {d : Dialect}

/-- An operand that meets the demand on it is printed as it is: `fitted` adds nothing. -/
theorem Node.Fits.fitted {s : Surface} {n : Node} (h : n.Fits s) {required : Precedence} {e : Expr}
    (hq : (required, e) ∈ n.demands) (doc : Doc) : e.fitted required doc = doc :=
  Expr.fitted_of_le (h.meets _ hq) doc

mutual

/-- An expression whose nodes are `Plain` is printed by `Expr.plain`. The lemmas below are the
other parts of the induction. -/
theorem Expr.doc_eq_plain : ∀ e : Expr, AllNodes (Node.Plain d) e.nodes →
    e.doc d.surface = e.plain d.surface
  | .symbol _, _ | .literal _, _ => rfl
  | .grouping inner, h => by
    have ⟨hnode, hinner⟩ := allNodes_cons.1 h
    rw [Expr.doc, Expr.plain, Expr.fitted_comma, inner.doc_eq_plain hinner]
  | .unary op operand, h => by
    have ⟨⟨hformed, hfits⟩, hoperand⟩ := allNodes_cons.1 h
    have ih := operand.doc_eq_plain hoperand
    cases op with
    | new => rw [Expr.doc, Expr.plain, if_pos (hformed rfl), hfits.fitted (.head _), ih]
    | _ => rw [Expr.doc, Expr.plain, hfits.fitted (.head _), ih] <;> nofun
  | .step op operand, h => by
    have ⟨⟨_, hfits⟩, hoperand⟩ := allNodes_cons.1 h
    rw [Expr.doc, Expr.plain, hfits.fitted (.head _), operand.doc_eq_plain hoperand]
  | .binary op left right, h => by
    have ⟨⟨⟨hnew, hdot⟩, hfits⟩, hparts⟩ := allNodes_cons.1 h
    have ⟨hleft, hright⟩ := allNodes_append.1 hparts
    have ihl := left.doc_eq_plain hleft
    have ihr := fun hop : op ≠ .dot => right.doc_eq_plain (by simpa [hop] using hright)
    cases op with
    | new =>
      -- the two faults of `new` are ruled out by what is known of the node
      obtain ⟨hpath, hlist⟩ := hnew rfl
      rw [Expr.doc, Expr.plain, if_neg (by simp [hpath]), if_neg (by simp [hlist]),
        hfits.fitted (.head _), ihl, ihr nofun]
    | dot =>
      obtain ⟨name, rfl, -⟩ := hdot rfl
      rw [Expr.doc, Expr.plain, Expr.plain, hfits.fitted (.head _), ihl]
    | _ =>
      rw [Expr.doc, Expr.plain, hfits.fitted (.head _), hfits.fitted (.tail _ (.head _)), ihl,
        ihr nofun] <;> nofun
  | .ternary test yes no, h => by
    have ⟨⟨_, hfits⟩, hparts⟩ := allNodes_cons.1 h
    have ⟨hfirst, hno⟩ := allNodes_append.1 hparts
    have ⟨htest, hyes⟩ := allNodes_append.1 hfirst
    rw [Expr.doc, Expr.plain, hfits.fitted (.head _), hfits.fitted (.tail _ (.head _)),
      hfits.fitted (.tail _ (.tail _ (.head _))), test.doc_eq_plain htest, yes.doc_eq_plain hyes,
      no.doc_eq_plain hno]
  | .call callee arguments, h => by
    have ⟨⟨hformed, hfits⟩, hparts⟩ := allNodes_cons.1 h
    have ⟨hcallee, harguments⟩ := allNodes_append.1 hparts
    have hlist : arguments.isList = true := hformed
    rw [Expr.doc, Expr.plain, if_pos hlist, hfits.fitted (.head _), callee.doc_eq_plain hcallee,
      arguments.doc_eq_plain harguments]
  | .index target position, h => by
    have ⟨⟨_, hfits⟩, hparts⟩ := allNodes_cons.1 h
    have ⟨htarget, hposition⟩ := allNodes_append.1 hparts
    rw [Expr.doc, Expr.plain, hfits.fitted (.head _), Expr.fitted_comma,
      target.doc_eq_plain htarget, position.doc_eq_plain hposition]
  | .object es, h => by
    rw [Expr.doc, Expr.plain, Entry.docs_eq_plains es (allNodes_cons.1 h).2]
  | .array es, h => by
    have ⟨⟨_, hfits⟩, hes⟩ := allNodes_cons.1 h
    have hdocs := Expr.docs_eq_plains es (by simpa [Node.Meets, Node.demands] using hfits.meets) hes
    rw [Expr.doc, Expr.plain, hdocs]
  | .list es comma, h => by
    have ⟨⟨_, hfits⟩, hes⟩ := allNodes_cons.1 h
    have hdocs := Expr.docs_eq_plains es (by simpa [Node.Meets, Node.demands] using hfits.meets) hes
    rw [Expr.doc, Expr.plain, hdocs]
  | .function name params body, h => by
    have ih := Declaration.docs_eq_plains body (allNodes_cons.1 h).2
    cases name <;> simp only [Expr.doc, Expr.plain, ih]
  | .arrow params body, h => by
    have ⟨⟨_, hfits⟩, hbody⟩ := allNodes_cons.1 h
    -- the body is not enclosed for the sake of how it begins
    have hwrapped : body.readsAsBlock d.surface = false := hfits.notWrapped
    rw [Expr.doc, Expr.plain, if_neg (by simp [hwrapped]), hfits.fitted (.head _),
      body.doc_eq_plain hbody]
  | .arrowBlock params body, h => by
    rw [Expr.doc, Expr.plain, Declaration.docs_eq_plains body (allNodes_cons.1 h).2]

theorem Expr.docs_eq_plains : ∀ es : List Expr, (∀ e ∈ es, .assignment ≤ e.precedence) →
    AllNodes (Node.Plain d) (Expr.nodesOf es) → Expr.docs d.surface es = Expr.plains d.surface es
  | [], _, _ => rfl
  | e :: es, hle, h => by
    have ⟨he, hes⟩ := allNodes_append.1 h
    have ⟨hfirst, hrest⟩ := List.forall_mem_cons.1 hle
    rw [Expr.docs, Expr.plains, Expr.fitted_of_le hfirst, e.doc_eq_plain he,
      Expr.docs_eq_plains es hrest hes]

theorem Entry.docs_eq_plains : ∀ es : List Entry, AllNodes (Node.Plain d) (Entry.nodesOf es) →
    Entry.docs d.surface es = Entry.plains d.surface es
  | [], _ => rfl
  | .shorthand key :: es, h => by
    rw [Entry.docs, Entry.plains, Entry.docs_eq_plains es (allNodes_append.1 h).2, Entry.doc,
      Entry.plain]
  | .pair key value :: es, h => by
    have ⟨he, hes⟩ := allNodes_append.1 h
    have ⟨⟨_, hfits⟩, hvalue⟩ := allNodes_cons.1 he
    rw [Entry.docs, Entry.plains, Entry.docs_eq_plains es hes, Entry.doc, Entry.plain,
      hfits.fitted (.head _), value.doc_eq_plain hvalue]

theorem Statement.doc_eq_plain : ∀ (further : Bool) (st : Statement),
    AllNodes (Node.Plain d) st.nodes →
    st.doc d.surface further = st.plain d.surface further
  | further, .ifThen test body none, h => by
    have ⟨htest, hbody⟩ := allNodes_append.1 (allNodes_cons.1 h).2
    rw [Statement.doc, Statement.plain, Expr.fitted_comma, test.doc_eq_plain htest,
      Declaration.docs_eq_plains body hbody]
  | further, .ifThen test body (some (.block other)), h => by
    have ⟨hfirst, hother⟩ := allNodes_append.1 (allNodes_cons.1 h).2
    have ⟨htest, hbody⟩ := allNodes_append.1 hfirst
    rw [Statement.doc, Statement.plain, Expr.fitted_comma, test.doc_eq_plain htest,
      Declaration.docs_eq_plains body hbody,
      Declaration.docs_eq_plains other (allNodes_cons.1 hother).2]
  | further, .ifThen test body (some (.ifThen t b o)), h => by
    have ⟨hfirst, hother⟩ := allNodes_append.1 (allNodes_cons.1 h).2
    have ⟨htest, hbody⟩ := allNodes_append.1 hfirst
    rw [Statement.doc, Statement.plain, Expr.fitted_comma, test.doc_eq_plain htest,
      Declaration.docs_eq_plains body hbody, Statement.doc_eq_plain true _ hother]
    nofun
  | _, .ifThen _ _ (some (.whileLoop ..)), h | _, .ifThen _ _ (some (.forLoop ..)), h
  | _, .ifThen _ _ (some (.throw _)), h | _, .ifThen _ _ (some (.ret _)), h
  | _, .ifThen _ _ (some (.expr _)), h => (allNodes_cons.1 h).1.1.elim
  | further, .whileLoop test body, h => by
    have ⟨htest, hbody⟩ := allNodes_append.1 (allNodes_cons.1 h).2
    rw [Statement.doc, Statement.plain, Expr.fitted_comma, test.doc_eq_plain htest,
      Declaration.docs_eq_plains body hbody]
  | further, .forLoop keyword ns collection body bracketed, h => by
    have ⟨hcollection, hbody⟩ := allNodes_append.1 (allNodes_cons.1 h).2
    have ih := Declaration.docs_eq_plains body hbody
    cases keyword <;> simp only [Statement.doc, Statement.plain, Expr.fitted_comma,
      collection.doc_eq_plain hcollection, ih]
  | further, .throw value, h => by
    rw [Statement.doc, Statement.plain, Expr.fitted_comma,
      value.doc_eq_plain (allNodes_cons.1 h).2]
  | further, .ret none, _ => by rw [Statement.doc, Statement.plain]
  | further, .ret (some value), h => by
    rw [Statement.doc, Statement.plain, Expr.fitted_comma,
      value.doc_eq_plain (allNodes_cons.1 h).2]
  | further, .expr value, h => by
    have ⟨⟨_, hfits⟩, hvalue⟩ := allNodes_cons.1 h
    have hwrapped : value.isAmbiguous d.surface = false := hfits.notWrapped
    rw [Statement.doc, Statement.plain, if_neg (by simp [hwrapped]), Expr.fitted_comma,
      value.doc_eq_plain hvalue]
  | further, .block body, h => by
    rw [Statement.doc, Statement.plain, Declaration.docs_eq_plains body (allNodes_cons.1 h).2]

theorem Declaration.doc_eq_plain : ∀ x : Declaration, AllNodes (Node.Plain d) x.nodes →
    x.doc d.surface = x.plain d.surface
  | .function name params body exported isAsync, h => by
    rw [Declaration.doc, Declaration.plain, Declaration.docs_eq_plains body (allNodes_cons.1 h).2]
  | .var keyword name none exported, _ => by rw [Declaration.doc, Declaration.plain]
  | .var keyword name (some value) exported, h => by
    have ⟨⟨_, hfits⟩, hvalue⟩ := allNodes_cons.1 h
    rw [Declaration.doc, Declaration.plain, hfits.fitted (.head _), value.doc_eq_plain hvalue]
  | .vars keyword ns value exported, h => by
    have ⟨⟨_, hfits⟩, hvalue⟩ := allNodes_cons.1 h
    rw [Declaration.doc, Declaration.plain, hfits.fitted (.head _), value.doc_eq_plain hvalue]
  | .statement st, h => by
    rw [Declaration.doc, Declaration.plain, Statement.doc_eq_plain false st (allNodes_cons.1 h).2]
  | .comments cs, _ => by rw [Declaration.doc, Declaration.plain]

/-- A tree whose nodes are all `Plain` is printed without added parentheses. -/
theorem Declaration.docs_eq_plains : ∀ xs : List Declaration,
    AllNodes (Node.Plain d) (Declaration.nodesOf xs) →
    Declaration.docs d.surface xs = Declaration.plains d.surface xs
  | [], _ => rfl
  | x :: xs, h => by
    have ⟨hx, hxs⟩ := allNodes_append.1 h
    rw [Declaration.docs, Declaration.plains, Declaration.doc_eq_plain x hx,
      Declaration.docs_eq_plains xs hxs]

end

end Plain

/-! ## Parsed trees -/

theorem allPlain_of_parsed {d : Dialect} {ns : List Node} (hparsed : AllNodes (Node.Parsed d) ns)
    (hmeets : AllNodes Node.Meets ns) : AllNodes (Node.Plain d) ns :=
  fun n hn => ⟨(hparsed n hn).formed, hmeets n hn, (hparsed n hn).isWrapped⟩

/-- **What is parsed is printed without added parentheses** in its own dialect. Whatever stands in a
place of its tree binds as strongly as printing asks for there, nothing is put in parentheses for
the sake of how it begins, and so the document has no parentheses but those of the tree, of
parameters and of headers. -/
theorem doc_eq_plain_of_parsed (d : Dialect) :
    (∀ file text p, parseText d file text = .ok (some p) →
      (∀ n ∈ p.nodes, n.Fits d.surface) ∧
        Declaration.docs d.surface p.body = Declaration.plains d.surface p.body) ∧
    ∀ text e, parseExpr d text = .ok e →
      (∀ n ∈ e.nodes, n.Fits d.surface) ∧
        e.fitted .comma (e.doc d.surface) = e.plain d.surface := by
  constructor
  · intro file text p h
    -- the nodes of a program are those of its declarations
    have hmeets : AllNodes Node.Meets p.nodes := by
      obtain @⟨S₁, S₂, S₃, S₄, m, cs, is, body, -, -, -, -, hb, -⟩ := reads_of_parseText h
      exact hb.meets allNodes_nil
    have hplain := allPlain_of_parsed (parsed_of_parseText h).1.nodes hmeets
    exact ⟨fun n hn => (hplain n hn).2, Declaration.docs_eq_plains p.body hplain⟩
  · intro text e h
    obtain ⟨S, hreads, -⟩ := reads_of_parseExpr h
    have hparsed : AllNodes (Node.Parsed d) e.nodes :=
      hreads.parsed (proper_cut d text.toList).allGenuine allNodes_nil
    have hplain := allPlain_of_parsed hparsed (hreads.meets allNodes_nil)
    rw [Expr.fitted_comma]
    exact ⟨fun n hn => (hplain n hn).2, e.doc_eq_plain hplain⟩

/-- Parentheses before a power sign, around an arrow function that is called, and around an object
at the start of a statement are nodes of the tree, so none are added to them. -/
theorem doc_eq_plain_of_parsed_power :
    (∃ p, parseText .brace "a" "(\x7b \x7d).x = (-a) ** b ** 2;" = .ok (some p) ∧
      (∀ n ∈ p.nodes, n.Fits Dialect.brace.surface) ∧
        Declaration.docs Dialect.brace.surface p.body =
          Declaration.plains Dialect.brace.surface p.body) ∧
    ∃ e, parseExpr .block "((x, y) => x - (y - 1))(new A.b(c), d ? e : f)" = .ok e ∧
      (∀ n ∈ e.nodes, n.Fits Dialect.block.surface) ∧
        e.fitted .comma (e.doc Dialect.block.surface) = e.plain Dialect.block.surface := by
  have hassign : (parseText .brace "a" "(\x7b \x7d).x = (-a) ** b ** 2;").toOption.join.isSome =
      true := by
    rw [parseText, parse, Lexer.run, Lexer.tokens_ofText]
    decide +kernel
  have hcall : (parseExpr .block
      "((x, y) => x - (y - 1))(new A.b(c), d ? e : f)").toOption.isSome = true := by
    rw [parseExpr, Lexer.run, Lexer.tokens_ofText]
    decide +kernel
  constructor
  · cases hp : parseText .brace "a" "(\x7b \x7d).x = (-a) ** b ** 2;" with
    | error err => simp [hp, Except.toOption] at hassign
    | ok p? =>
      cases p? with
      | none => simp [hp, Except.toOption] at hassign
      | some p => exact ⟨p, rfl, (doc_eq_plain_of_parsed .brace).1 _ _ p hp⟩
  · cases he : parseExpr .block "((x, y) => x - (y - 1))(new A.b(c), d ? e : f)" with
    | error err => simp [he, Except.toOption] at hcall
    | ok e => exact ⟨e, rfl, (doc_eq_plain_of_parsed .block).2 _ e he⟩

end Diglot

import Diglot.Proofs.Derivation

/-!
# The nodes of a tree

All nodes of a tree in the order in which they are written, each before those inside it. What a
statement says about every node, wherever it stands, is said about this list.

- `Node`: an expression, an object entry, a statement or a declaration.
- `AllNodes`: a property that all nodes of a list have.
- `Expr.nodes`, `Entry.nodes`, `Statement.nodes`, `Declaration.nodes`, `Program.nodes`: the nodes.
- `Phrase.nodes`, `Phrase.earlier`: the nodes of what a phrase means, and of what it goes on from.
- `Node.comments`, `Program.comments`: the comments that nodes hold.
- `Node.names`, `Program.names`: the names that nodes use or declare.
- `Program.namesIn`: those that stand as names in the text of a dialect.
-/

namespace Diglot

/-- A part of a tree: an `Expr`, an `Entry`, a `Statement` or a `Declaration`. -/
inductive Node where
  | expr (e : Expr)
  | entry (e : Entry)
  | statement (s : Statement)
  | declaration (x : Declaration)

/-- Nodes that all have a property `P`. -/
def AllNodes (P : Node → Prop) (ns : List Node) : Prop :=
  ∀ n ∈ ns, P n

section AllNodes

variable {P : Node → Prop} {n : Node} {ns ns' : List Node}

@[simp] theorem allNodes_nil : AllNodes P [] :=
  List.forall_mem_nil P

@[simp] theorem allNodes_cons : AllNodes P (n :: ns) ↔ P n ∧ AllNodes P ns :=
  List.forall_mem_cons

/-- `AllNodes` splits over the nodes of two neighbours, so a property of a tree is one of its
parts. -/
@[simp] theorem allNodes_append : AllNodes P (ns ++ ns') ↔ AllNodes P ns ∧ AllNodes P ns' :=
  List.forall_mem_append

end AllNodes

mutual

/-- An expression and the nodes inside it. The right operand of a `BinaryOp.dot` names a member
and is no node of its own. -/
def Expr.nodes : Expr → List Node
  | .symbol name => [.expr (.symbol name)]
  | .literal value => [.expr (.literal value)]
  | .grouping inner => .expr (.grouping inner) :: inner.nodes
  | .unary op operand => .expr (.unary op operand) :: operand.nodes
  | .step op operand => .expr (.step op operand) :: operand.nodes
  | .binary op left right =>
    .expr (.binary op left right) :: (left.nodes ++ if op = .dot then [] else right.nodes)
  | .ternary test yes no => .expr (.ternary test yes no) :: (test.nodes ++ yes.nodes ++ no.nodes)
  | .call callee arguments => .expr (.call callee arguments) :: (callee.nodes ++ arguments.nodes)
  | .index target position => .expr (.index target position) :: (target.nodes ++ position.nodes)
  | .object es => .expr (.object es) :: Entry.nodesOf es
  | .list es comma => .expr (.list es comma) :: Expr.nodesOf es
  | .array es => .expr (.array es) :: Expr.nodesOf es
  | .function name params body => .expr (.function name params body) :: Declaration.nodesOf body
  | .arrow params body => .expr (.arrow params body) :: body.nodes
  | .arrowBlock params body => .expr (.arrowBlock params body) :: Declaration.nodesOf body

/-- The nodes of several expressions. -/
def Expr.nodesOf : List Expr → List Node
  | [] => []
  | e :: es => e.nodes ++ Expr.nodesOf es

/-- An object entry and the nodes inside it. -/
def Entry.nodes : Entry → List Node
  | .shorthand key => [.entry (.shorthand key)]
  | .pair key value => .entry (.pair key value) :: value.nodes

/-- The nodes of several object entries. -/
def Entry.nodesOf : List Entry → List Node
  | [] => []
  | e :: es => e.nodes ++ Entry.nodesOf es

/-- A statement and the nodes inside it. -/
def Statement.nodes : Statement → List Node
  | .ifThen test body none =>
    .statement (.ifThen test body none) :: (test.nodes ++ Declaration.nodesOf body)
  | .ifThen test body (some other) =>
    .statement (.ifThen test body (some other)) ::
      (test.nodes ++ Declaration.nodesOf body ++ other.nodes)
  | .whileLoop test body =>
    .statement (.whileLoop test body) :: (test.nodes ++ Declaration.nodesOf body)
  | .forLoop keyword names collection body bracketed =>
    .statement (.forLoop keyword names collection body bracketed) ::
      (collection.nodes ++ Declaration.nodesOf body)
  | .throw value => .statement (.throw value) :: value.nodes
  | .ret none => [.statement (.ret none)]
  | .ret (some value) => .statement (.ret (some value)) :: value.nodes
  | .expr value => .statement (.expr value) :: value.nodes
  | .block body => .statement (.block body) :: Declaration.nodesOf body

/-- A declaration and the nodes inside it. -/
def Declaration.nodes : Declaration → List Node
  | .function name params body exported isAsync =>
    .declaration (.function name params body exported isAsync) :: Declaration.nodesOf body
  | .var keyword name none exported => [.declaration (.var keyword name none exported)]
  | .var keyword name (some value) exported =>
    .declaration (.var keyword name (some value) exported) :: value.nodes
  | .vars keyword names value exported =>
    .declaration (.vars keyword names value exported) :: value.nodes
  | .statement s => .declaration (.statement s) :: s.nodes
  | .comments cs => [.declaration (.comments cs)]

/-- The nodes of several declarations. -/
def Declaration.nodesOf : List Declaration → List Node
  | [] => []
  | x :: xs => x.nodes ++ Declaration.nodesOf xs

end

/-- The nodes of a program. -/
def Program.nodes (p : Program) : List Node :=
  Declaration.nodesOf p.body

/-- `Declaration.nodesOf` goes through a block one declaration after the other. -/
@[simp] theorem Declaration.nodesOf_append (xs ys : Block) :
    Declaration.nodesOf (xs ++ ys) = Declaration.nodesOf xs ++ Declaration.nodesOf ys := by
  induction xs with
  | nil => rfl
  | cons x xs ih => simp [Declaration.nodesOf, ih]

/-- No token is read as `BinaryOp.dot` by `infixOp?`, so both operands of what it reads are
nodes. -/
theorem ne_dot_of_infixOp? {k : TokenKind} {op : BinaryOp} (h : infixOp? k = some op) :
    op ≠ .dot := by
  rintro rfl
  unfold infixOp? at h
  split at h <;> simp at h

/-- An assignment is not `BinaryOp.dot` either. -/
theorem ne_dot_of_assignment {op : BinaryOp} (h : op.precedence = .assignment) : op ≠ .dot := by
  rintro rfl
  exact absurd h (by decide)

/-- The nodes of what a `Phrase` means, none for one that yields no tree. -/
def Phrase.nodes : (φ : Phrase) → φ.Out → List Node
  | .block, body | .declarations, body => Declaration.nodesOf body
  | .arguments, e | .primary, e | .pathFrom _, e | .memberFrom _, e | .member, e | .step, e
  | .unary, e | .climbFrom _ _, e | .climb _, e | .assignment, e | .sequenceFrom _, e
  | .expr, e => e.nodes
  | .elements _ _, (es, _) => Expr.nodesOf es
  | .entry, e => e.nodes
  | .entries, es => Entry.nodesOf es
  | .conditional, st | .statement, st => st.nodes
  | .loopHeader, (_, _, _, e) => e.nodes
  | .declaration, x => x.nodes
  | .names, _ | .signature, _ | .endStatement, _ | .importedNames, _ | .imports, _ => []

/-- The nodes of what a phrase goes on from, as `Phrase.climbFrom` does from its left operand. -/
def Phrase.earlier : Phrase → List Node
  | .pathFrom e | .memberFrom e | .climbFrom _ e | .sequenceFrom e => e.nodes
  | _ => []

/-! ## Comments -/

/-- The comments that a node holds, without those of the nodes inside it. -/
def Node.comments : Node → List Comment
  | .declaration (.comments cs) => cs
  | _ => []

/-- The comments of a program, in the order in which they are written: `leading`, then those of
its `nodes`. -/
def Program.comments (p : Program) : List Comment :=
  p.leading ++ p.nodes.flatMap Node.comments

/-! ## Names -/

/-- The name that a key is, if it is one. -/
def Key.names : Key → List String
  | .symbol name => [name]
  | .string .. => []

/-- The names that a node uses or declares, without those of the nodes inside it. The name of a
member after a `BinaryOp.dot` is not among them. -/
def Node.names : Node → List String
  | .expr (.symbol name) => [name]
  | .expr (.function name params _) => name.toList ++ params
  | .expr (.arrow params _) | .expr (.arrowBlock params _) => params
  | .entry (.shorthand key) | .entry (.pair key _) => key.names
  | .statement (.forLoop _ names _ _ _) => names
  | .declaration (.function name params _ _ _) => name :: params
  | .declaration (.var _ name _ _) => [name]
  | .declaration (.vars _ names _ _) => names
  | _ => []

/-- The names that an import declares. -/
def Import.declared : Import → List String
  | .names ns _ => ns
  | .whole name _ => [name]

/-- The names of a program: of its `moduleName`, its `imports` and its `nodes`. -/
def Program.names (p : Program) : List String :=
  p.moduleName.toList ++ p.imports.flatMap Import.declared ++ p.nodes.flatMap Node.names

/-- The names that stand as names in the text of a program. `Dialect.brace` writes a module line
as a comment, so the name of the module is not among them there. -/
def Program.namesIn (t : Dialect) (p : Program) : List String :=
  (match t with
    | .brace => []
    | .block => p.moduleName.toList)
    ++ p.imports.flatMap Import.declared ++ p.nodes.flatMap Node.names

/-- `Program.namesIn` leaves out names of `Program.names` and adds none. -/
theorem Program.namesIn_subset (t : Dialect) (p : Program) : p.namesIn t ⊆ p.names := by
  cases t with
  | brace =>
    intro n hn
    rw [names, List.append_assoc]
    exact List.mem_append_right _ hn
  | block => exact fun _ hn => hn

end Diglot

import Diglot.Proofs.Files

/-!
# The sign for dividing and assigning

A program is printed with the sign for dividing and assigning only where it has a node for it. The
text of a program without such nodes is cut into its pieces, whatever else stands in it.

- `Divides`: there is a division that assigns among some nodes.
- `Expr.divides`, `Statement.divides`, `Declaration.divides`: the sign comes from such a node.
- `Program.divides`: so it does in a whole file.
-/

namespace Diglot

open Rules

/-- There is a `BinaryOp.divAssign` among some nodes. -/
def Divides (ns : List Node) : Prop :=
  ∃ l r, Node.expr (.binary .divAssign l r) ∈ ns

section Divides

variable {t : Dialect} {n : Node} {ns ns' : List Node}

@[simp] theorem divides_cons :
    Divides (n :: ns) ↔ (∃ l r, .expr (.binary .divAssign l r) = n) ∨ Divides ns := by
  simp only [Divides, List.mem_cons, exists_or]

/-- `Divides` looks at the nodes of two neighbours one after the other. -/
@[simp] theorem divides_append : Divides (ns ++ ns') ↔ Divides ns ∨ Divides ns' := by
  simp only [Divides, List.mem_append, exists_or]

/-- The commas that `Tape.commas` puts between tapes bring in no `.divide`. -/
@[simp] theorem divide_mem_commas {Ps : List Tape} :
    .divide ∈ Tape.commas Ps ↔ ∃ P ∈ Ps, .divide ∈ P := by
  cases Ps <;> simp [Tape.commas]

/-- Nor do the brackets and commas of `argumentPieces`. -/
@[simp] theorem divide_mem_argumentPieces {Ps : List Tape} {comma : Bool} :
    .divide ∈ argumentPieces Ps comma ↔ ∃ P ∈ Ps, .divide ∈ P := by
  cases comma <;> simp [argumentPieces]

/-- Nor do the brackets of `enclosedPieces`, where they are written at all. -/
@[simp] theorem divide_mem_enclosedPieces {b : Bool} {P : Tape} :
    .divide ∈ enclosedPieces b P ↔ .divide ∈ P := by
  cases b <;> simp [enclosedPieces]

/-- The marks that either dialect sets around a block are not `.divide`. -/
@[simp] theorem divide_mem_blockPieces {P : Tape} : .divide ∈ blockPieces t P ↔ .divide ∈ P := by
  cases t <;> simp [blockPieces, Dialect.blockOpen, Dialect.blockClose]

/-- Nor is the word that `functionPieces` writes before a function. -/
@[simp] theorem divide_mem_functionPieces {P : Tape} :
    .divide ∈ functionPieces t P ↔ .divide ∈ P := by
  cases t <;> simp [functionPieces, Dialect.functionWord]

/-- The name of a member is written as one word, so `.divide` is not in `Expr.memberPieces`. -/
@[simp] theorem divide_not_mem_memberPieces (e : Expr) : .divide ∉ e.memberPieces t := by
  cases e with
  | symbol name =>
    have hkind : t.wordKind name ≠ .assign := by
      unfold Dialect.wordKind
      split
      · nofun
      · split <;> nofun
    simpa [Expr.memberPieces] using fun h => absurd h.symm hkind
  | _ => simp [Expr.memberPieces]

/-- `headerPieces` are the header itself and, in the brace dialect, a pair of parentheses. -/
@[simp] theorem divide_mem_headerPieces {P : Tape} :
    .divide ∈ headerPieces P t ↔ .divide ∈ P := by
  cases t <;> simp [headerPieces]

@[simp] theorem divide_not_mem_flagPieces (w : Keyword) (b : Bool) :
    .divide ∉ flagPieces w b := by
  cases b <;> simp [flagPieces]

@[simp] theorem divide_not_mem_loopWord (kw : Option VarKeyword) : .divide ∉ loopWord kw := by
  simp [loopWord]

@[simp] theorem divide_not_mem_loopNames (names : List String) (bracketed : Bool) :
    .divide ∉ loopNames names bracketed := by
  cases bracketed <;> simp [loopNames, namePieces]

/-- The words that `Statement.framed` writes around a conditional are not `.divide`. -/
@[simp] theorem divide_mem_framed {st : Statement} {P : Tape} :
    .divide ∈ st.framed t P ↔ .divide ∈ P := by
  cases st <;> cases t <;> simp [Statement.framed, ifEnd]

/-- `branchPieces` has the pieces of a test and of a branch, and words and signs between them. -/
@[simp] theorem divide_mem_branchPieces {P Q : Tape} :
    .divide ∈ branchPieces P Q t ↔ .divide ∈ P ∨ .divide ∈ Q := by
  cases t <;> simp [branchPieces]

/-- An operation is written with its operands and its sign. The sign is `.divide` for
`BinaryOp.divAssign` alone, and the right operand of `BinaryOp.dot` is written by its name. -/
theorem divide_mem_binary {op : BinaryOp} {l r : Expr}
    (h : .divide ∈ (Expr.binary op l r).pieces t) :
    op = .divAssign ∨ .divide ∈ l.pieces t ∨ (op ≠ .dot ∧ .divide ∈ r.pieces t) := by
  cases op with
  | divAssign => exact .inl rfl
  | _ => simpa [Expr.pieces, BinaryOp.kind, BinaryOp.spelling] using h

/-- What a second branch adds to `Statement.inner` is the inside of the statement that it is. -/
theorem divide_mem_inner {test : Expr} {body : Block} {other : Statement}
    (h : .divide ∈ (Statement.ifThen test body (some other)).inner t) :
    .divide ∈ test.pieces t ∨ .divide ∈ Declaration.piecesOf t body ∨ .divide ∈ other.inner t := by
  cases other <;> cases t <;>
    simpa [Statement.inner, elsePieces, elseIfPieces, or_assoc] using h

mutual

/-- In the pieces of an expression `.divide` comes from a node that divides and assigns. -/
theorem Expr.divides : ∀ e : Expr, .divide ∈ e.pieces t → Divides e.nodes
  | .symbol _, h => by simp [Expr.pieces] at h
  | .literal value, h => by cases value <;> simp [Expr.pieces, Literal.kind] at h
  | .grouping e, h | .arrow _ e, h => by
    have he := e.divides
    simp_all [Expr.pieces, Expr.nodes, signaturePieces]
  | .unary op e, h => by
    have he := e.divides
    cases op <;> simp_all [Expr.pieces, Expr.nodes, UnaryOp.kind]
  | .step op e, h => by
    have he := e.divides
    cases op <;> simp_all [Expr.pieces, Expr.nodes, StepOp.kind]
  | .binary op l r, h => by
    have hl := l.divides
    have hr := r.divides
    -- the one case where the sign may be the node's own
    rcases divide_mem_binary h with rfl | h | ⟨hdot, h⟩ <;> simp_all [Expr.nodes]
  | .ternary test yes no, h => by
    have htest := test.divides
    have hyes := yes.divides
    have hno := no.divides
    simp only [Expr.pieces, Expr.nodes] at *
    grind [divides_cons, divides_append]
  | .call e e', h | .index e e', h => by
    have he := e.divides
    have he' := e'.divides
    simp only [Expr.pieces, Expr.nodes] at *
    grind [divides_cons, divides_append]
  | .object entries, h => by
    have hentries := Entry.divides entries
    simp_all [Expr.pieces, Expr.nodes]
  | .list elements _, h | .array elements, h => by
    have helements := Expr.divides_of elements
    simp_all [Expr.pieces, Expr.nodes]
  | .function name params body, h => by
    have hbody := Declaration.divides body
    cases name <;> simp_all [Expr.pieces, Expr.nodes, signaturePieces]
  | .arrowBlock params body, h => by
    have hbody := Declaration.divides body
    simp_all [Expr.pieces, Expr.nodes, signaturePieces]

/-- So it does in the pieces of several expressions. -/
theorem Expr.divides_of : ∀ es : List Expr, (∃ P ∈ Expr.piecesOf t es, .divide ∈ P) →
    Divides (Expr.nodesOf es)
  | [], h => by simp [Expr.piecesOf] at h
  | e :: es, h => by
    have he := e.divides
    have hes := Expr.divides_of es
    simp only [Expr.piecesOf, Expr.nodesOf, List.exists_mem_cons_iff, divides_append] at *
    exact h.imp he hes

/-- So it does in the pieces of object entries: a key is written as a name or a string. -/
theorem Entry.divides : ∀ es : List Entry, (∃ P ∈ Entry.piecesOf t es, .divide ∈ P) →
    Divides (Entry.nodesOf es)
  | [], h => by simp [Entry.piecesOf] at h
  | .shorthand key :: es, h => by
    have htail : ∃ P ∈ Entry.piecesOf t es, .divide ∈ P := by
      cases key <;> simpa [Entry.piecesOf, Entry.pieces, Key.piece, Key.kind] using h
    simp [Entry.nodesOf, Entry.divides es htail]
  | .pair key value :: es, h => by
    have hvalue := value.divides
    have hes := Entry.divides es
    have hparts : .divide ∈ value.pieces t ∨ ∃ P ∈ Entry.piecesOf t es, .divide ∈ P := by
      cases key <;> simpa [Entry.piecesOf, Entry.pieces, Key.piece, Key.kind] using h
    rcases hparts with h | h <;> simp_all [Entry.nodesOf, Entry.nodes]

/-- So it does in `Statement.inner`, which has all pieces of a statement but its words. -/
theorem Statement.divides : ∀ st : Statement, .divide ∈ st.inner t → Divides st.nodes
  | .ifThen test body none, h => by
    have htest := test.divides
    have hbody := Declaration.divides body
    rcases divide_mem_branchPieces.1 h with h | h <;> simp_all [Statement.nodes]
  | .ifThen test body (some other), h => by
    have htest := test.divides
    have hbody := Declaration.divides body
    have hother := other.divides
    rcases divide_mem_inner h with h | h | h <;> simp_all [Statement.nodes]
  | .whileLoop e body, h | .forLoop _ _ e body _, h => by
    have he := e.divides
    have hbody := Declaration.divides body
    have hparts : .divide ∈ e.pieces t ∨ .divide ∈ Declaration.piecesOf t body := by
      simpa [Statement.inner] using h
    rcases hparts with h | h <;> simp_all [Statement.nodes]
  | .throw e, h | .ret (some e), h | .expr e, h => by
    have he := e.divides
    simp_all [Statement.inner, Statement.nodes]
  | .ret none, h => by simp [Statement.inner] at h
  | .block body, h => by
    have hbody := Declaration.divides body
    simp_all [Statement.inner, Statement.nodes]

/-- So it does in the pieces of a block. -/
theorem Declaration.divides : ∀ xs : Block, .divide ∈ Declaration.piecesOf t xs →
    Divides (Declaration.nodesOf xs)
  | [], h => by simp [Declaration.piecesOf] at h
  | x :: xs, h => by
    have hxs := Declaration.divides xs
    -- a declaration is treated here and not as a member of the family, since only blocks need
    -- it
    have hx : .divide ∈ x.pieces t → Divides x.nodes := by
      intro h
      match x with
      | .function name params body exported isAsync =>
        have hbody := Declaration.divides body
        simp_all [Declaration.pieces, Declaration.nodes, signaturePieces]
      | .var keyword name none exported =>
        simp [Declaration.pieces] at h
      | .var keyword name (some value) exported =>
        have hvalue := value.divides
        simp_all [Declaration.pieces, Declaration.nodes]
      | .vars keyword names value exported =>
        have hvalue := value.divides
        simp_all [Declaration.pieces, Declaration.nodes, namePieces]
      | .statement st =>
        have hst := st.divides
        simp_all [Declaration.pieces, Declaration.nodes]
      | .comments cs => simp [Declaration.pieces] at h
    simp only [Declaration.piecesOf, Declaration.nodesOf, List.mem_append, divides_append] at *
    exact h.imp hx hxs

end

/-- In `filePieces`, which add a module line and imports, `.divide` comes from a node of the
file. -/
theorem Program.divides {p : Program} (h : .divide ∈ filePieces t p) : Divides p.nodes := by
  have himports (i : Import) : .divide ∉ importPieces i := by
    cases i <;> simp [importPieces, namePieces]
  have hmodule : .divide ∉ modulePieces p.moduleName := by simp [modulePieces]
  simp only [filePieces, List.mem_append, List.mem_map, List.mem_flatMap, hmodule, himports] at h
  exact Declaration.divides p.body (by simpa using h)

end Divides

end Diglot

import Diglot.Proofs.Statements

/-!
# Trees as pieces

The pieces that a tree is printed as, taken from the tree itself: its tokens and comments in the
order in which they are written, with nothing said about the layout. Parentheses are added only
where an expression would otherwise be read as something else; those that the strength of operators
asks for are nodes of the tree already, if it has been read.

- `BinaryOp.kind`, `UnaryOp.kind`, `StepOp.kind`: the tokens of operators.
- `Expr.pieces`, `Entry.pieces`, `Statement.pieces`, `Declaration.pieces`: the pieces of a tree.
- `Tape.Closed`: pieces that do not end in a comment; `Declaration.closed_pieces`: those of whatever
  is declared are so.
- `Declaration.ending`, `Declaration.beforeEnding`: the comments that declarations end with.
-/

namespace Diglot

open Rules

/-! ## Operators -/

/-- The token that a `BinaryOp` is between its operands. -/
def BinaryOp.kind : BinaryOp → TokenKind
  | .comma => .punct .comma
  | .assign | .addAssign | .subAssign | .mulAssign | .divAssign | .modAssign => .assign
  | .or => .punct .orOr
  | .and => .punct .andAnd
  | .eq => .punct .eqEq
  | .strictEq => .punct .identical
  | .notEq => .punct .notEq
  | .strictNotEq => .punct .notIdentical
  | .lt => .punct .less
  | .gt => .punct .greater
  | .ltEq => .punct .lessEq
  | .gtEq => .punct .greaterEq
  | .isIn => .keyword .inKw
  | .add => .punct .plus
  | .sub => .punct .minus
  | .mul => .punct .star
  | .div => .punct .slash
  | .mod => .punct .percent
  | .exp => .punct .starStar
  | .dot => .punct .dot
  | .new => .keyword .newKw

/-- The token that a `UnaryOp` is before its operand. -/
def UnaryOp.kind : UnaryOp → TokenKind
  | .neg => .punct .minus
  | .plus => .punct .plus
  | .not => .punct .not
  | .increment => .punct .plusPlus
  | .decrement => .punct .minusMinus
  | .typeof => .keyword .typeofKw
  | .await => .keyword .awaitKw
  | .new => .keyword .newKw

/-- The token that a `StepOp` is after its operand. -/
def StepOp.kind : StepOp → TokenKind
  | .increment => .punct .plusPlus
  | .decrement => .punct .minusMinus

/-- `BinaryOp.kind` undoes `infixOp?`. -/
theorem kind_of_infixOp? {k : TokenKind} {op : BinaryOp} (h : infixOp? k = some op) :
    op.kind = k := by
  unfold infixOp? at h
  split at h <;> cases h <;> rfl

/-- All operators that assign are one kind of token and are told apart by their `spelling`. -/
theorem kind_of_assignment {op : BinaryOp} (h : op.precedence = .assignment) :
    op.kind = .assign := by
  cases op <;> first | rfl | exact absurd h (by decide)

theorem ne_new_of_assignment {op : BinaryOp} (h : op.precedence = .assignment) : op ≠ .new := by
  rintro rfl
  exact absurd h (by decide)

/-- `UnaryOp.kind` undoes `unaryOp?`. -/
theorem kind_of_unaryOp? {k : TokenKind} {op : UnaryOp} (h : unaryOp? k = some op) :
    op.kind = k := by
  unfold unaryOp? at h
  split at h <;> cases h <;> rfl

/-- `StepOp.kind` undoes `stepOp?`. -/
theorem kind_of_stepOp? {k : TokenKind} {op : StepOp} (h : stepOp? k = some op) : op.kind = k := by
  unfold stepOp? at h
  split at h <;> cases h <;> rfl

/-! ## Trees -/

/-- The token that a key is. -/
def Key.kind : Key → TokenKind
  | .symbol _ => .symbol
  | .string .. => .string

/-- A key as a piece. -/
def Key.piece (key : Key) : Piece :=
  .token key.kind key.text

/-- `Key.piece` is the token that `Key.ofToken?` has read. -/
theorem Key.piece_of_ofToken? {k : TokenKind} {text : String} {key : Key}
    (h : Key.ofToken? text k = some key) : key.piece = .token k text := by
  cases k <;> cases h <;> rfl

/-- Declarations as a block, between the `blockOpen` and the `blockClose` of the dialect. -/
def blockPieces (t : Dialect) (P : Tape) : Tape :=
  .token t.blockOpen t.surface.blockOpen :: (P ++ [.token t.blockClose t.surface.blockClose])

/-- The word before a function, with the pieces of the function after it. -/
def functionPieces (t : Dialect) (P : Tape) : Tape :=
  .token t.functionWord t.surface.functionWord :: P

/-- The pieces of a statement from those inside it: a conditional begins and, by `ifEnd`,
perhaps ends with a word of its own. -/
def Statement.framed (t : Dialect) : Statement → Tape → Tape
  | .ifThen .., P => .word .ifKw :: (P ++ ifEnd t false)
  | _, P => P

/-- The name of a member after a point. A reserved word is a name there as well, so its kind is
`Dialect.wordKind`. -/
def Expr.memberPieces (t : Dialect) : Expr → Tape
  | .symbol name => [.token (t.wordKind name) name]
  | _ => []

mutual

/-- The pieces of an expression. Parentheses that are no node stand only around the body of an
arrow function that `readsAsBlock`. -/
def Expr.pieces (t : Dialect) : Expr → Tape
  | .symbol name => [.name name]
  | .literal value => [.token value.kind value.text]
  | .grouping inner => .sign .lparen :: (inner.pieces t ++ [.sign .rparen])
  | .unary op operand => .token op.kind op.spelling :: operand.pieces t
  | .step op operand => operand.pieces t ++ [.token op.kind op.spelling]
  | .binary .new left right => .word .newKw :: (left.pieces t ++ right.pieces t)
  | .binary .dot left right => left.pieces t ++ .sign .dot :: right.memberPieces t
  | .binary op left right => left.pieces t ++ .token op.kind op.spelling :: right.pieces t
  | .ternary test yes no =>
    test.pieces t ++ .sign .question :: (yes.pieces t ++ .sign .colon :: no.pieces t)
  | .call callee arguments => callee.pieces t ++ arguments.pieces t
  | .index target position =>
    target.pieces t ++ .sign .lbrack :: (position.pieces t ++ [.sign .rbrack])
  | .object entries => .sign .lbrace :: (Tape.commas (Entry.piecesOf t entries) ++ [.sign .rbrace])
  | .list elements trailingComma => argumentPieces (Expr.piecesOf t elements) trailingComma
  | .array elements => .sign .lbrack :: (Tape.commas (Expr.piecesOf t elements) ++ [.sign .rbrack])
  | .function name params body =>
    functionPieces t (name.toList.map .name ++
      (signaturePieces params ++ blockPieces t (Declaration.piecesOf t body)))
  | .arrow params body =>
    signaturePieces params ++
      .sign .arrow :: enclosedPieces (body.readsAsBlock t.surface) (body.pieces t)
  | .arrowBlock params body =>
    signaturePieces params ++ .sign .arrow :: blockPieces t (Declaration.piecesOf t body)

/-- The pieces of each of several expressions. -/
def Expr.piecesOf (t : Dialect) : List Expr → List Tape
  | [] => []
  | e :: es => e.pieces t :: Expr.piecesOf t es

/-- The pieces of an object entry. -/
def Entry.pieces (t : Dialect) : Entry → Tape
  | .shorthand key => [key.piece]
  | .pair key value => key.piece :: .sign .colon :: value.pieces t

/-- The pieces of each of several object entries. -/
def Entry.piecesOf (t : Dialect) : List Entry → List Tape
  | [] => []
  | e :: es => e.pieces t :: Entry.piecesOf t es

/-- The pieces of a statement; of a conditional, those between the words of `Statement.framed`.
Parentheses that are no node stand around an expression that `isAmbiguous`. -/
def Statement.inner (t : Dialect) : Statement → Tape
  | .ifThen test body none => branchPieces (test.pieces t) (Declaration.piecesOf t body) t
  | .ifThen test body (some (.block other)) =>
    branchPieces (test.pieces t) (Declaration.piecesOf t body) t
      ++ elsePieces (Declaration.piecesOf t other) t
  | .ifThen test body (some other) =>
    branchPieces (test.pieces t) (Declaration.piecesOf t body) t ++ elseIfPieces (other.inner t) t
  | .whileLoop test body =>
    .word .whileKw ::
      (headerPieces (test.pieces t) t ++ blockPieces t (Declaration.piecesOf t body))
  | .forLoop keyword names collection body bracketed =>
    .word .forKw ::
      (headerPieces (loopWord keyword ++
          (loopNames names bracketed ++ .word .ofKw :: collection.pieces t)) t
        ++ blockPieces t (Declaration.piecesOf t body))
  | .throw value => .word .throwKw :: (value.pieces t ++ [.sign .semicolon])
  | .ret none => [.word .returnKw, .sign .semicolon]
  | .ret (some value) => .word .returnKw :: (value.pieces t ++ [.sign .semicolon])
  | .expr value =>
    enclosedPieces (value.isAmbiguous t.surface) (value.pieces t) ++ [.sign .semicolon]
  | .block body => blockPieces t (Declaration.piecesOf t body)

/-- The pieces of a declaration. -/
def Declaration.pieces (t : Dialect) : Declaration → Tape
  | .function name params body exported isAsync =>
    flagPieces .exportKw exported ++ (flagPieces .asyncKw isAsync ++
      functionPieces t (.name name ::
        (signaturePieces params ++ blockPieces t (Declaration.piecesOf t body))))
  | .var keyword name none exported =>
    flagPieces .exportKw exported ++ [.word keyword.word, .name name, .sign .semicolon]
  | .var keyword name (some value) exported =>
    flagPieces .exportKw exported ++ .word keyword.word :: .name name :: .token .assign "=" ::
      (value.pieces t ++ [.sign .semicolon])
  | .vars keyword names value exported =>
    flagPieces .exportKw exported ++ .word keyword.word :: .sign .lbrack :: (namePieces names ++
      .sign .rbrack :: .token .assign "=" :: (value.pieces t ++ [.sign .semicolon]))
  | .statement s => s.framed t (s.inner t)
  | .comments cs => cs.map .comment

/-- The pieces of several declarations. -/
def Declaration.piecesOf (t : Dialect) : List Declaration → Tape
  | [] => []
  | x :: xs => x.pieces t ++ Declaration.piecesOf t xs

end

/-- The pieces of a statement, with the words that frame a conditional. -/
def Statement.pieces (t : Dialect) (st : Statement) : Tape :=
  st.framed t (st.inner t)

section

variable {t : Dialect}

/-- Apart from `BinaryOp.new` and `BinaryOp.dot` an operator stands between its operands. -/
theorem Expr.pieces_binary {op : BinaryOp} (hnew : op ≠ .new) (hdot : op ≠ .dot) (l r : Expr) :
    (Expr.binary op l r).pieces t = l.pieces t ++ .token op.kind op.spelling :: r.pieces t := by
  rw [Expr.pieces]
  · exact hnew
  · exact hdot

/-- `Declaration.piecesOf` writes a block one declaration after the other. -/
theorem Declaration.piecesOf_append (xs ys : Block) :
    Declaration.piecesOf t (xs ++ ys) = Declaration.piecesOf t xs ++ Declaration.piecesOf t ys := by
  induction xs with
  | nil => rfl
  | cons x xs ih => simp [Declaration.piecesOf, ih]

/-- `Comment.declare` makes a declaration of comments, or none where there are no comments. -/
theorem Declaration.piecesOf_declare (cs : List Comment) :
    Declaration.piecesOf t (Comment.declare cs) = cs.map .comment := by
  cases cs with
  | nil => rfl
  | cons c cs => simp [Comment.declare, Declaration.piecesOf, Declaration.pieces]

end

/-! ## Pieces that do not end in a comment -/

namespace Tape

/-- Pieces that end in a token that is no blank, and so in no comment. -/
def Closed (P : Tape) : Prop :=
  ∃ P₁ k text, P = P₁ ++ [.token k text] ∧ text.toList.all Text.isBlank = false

variable {P Q : Tape}

theorem Closed.after (h : Q.Closed) (P : Tape) : (P ++ Q).Closed := by
  obtain ⟨Q₁, k, text, rfl, htext⟩ := h
  exact ⟨P ++ Q₁, k, text, by simp, htext⟩

theorem Closed.cons (h : Q.Closed) (p : Piece) : Tape.Closed (p :: Q) :=
  h.after [p]

theorem closed_sign (p : Punct) : Tape.Closed [.sign p] :=
  ⟨[], _, _, rfl, by cases p <;> decide⟩

theorem closed_word (w : Keyword) : Tape.Closed [.word w] :=
  ⟨[], _, _, rfl, by cases w <;> decide⟩

/-- Pieces that are `Closed` leave no comment at their end. -/
theorem Closed.not_trails (h : P.Closed) : ¬P.Trails := by
  obtain ⟨P₁, k, text, rfl, htext⟩ := h
  rintro ⟨Q₁, c, Q₂, heq, hidle⟩
  rcases List.eq_nil_or_concat Q₂ with rfl | ⟨Q₂, q, rfl⟩
  · simpa using List.append_inj_right' heq rfl
  · have hlast : [.token k text] = [q] :=
      List.append_inj_right' (heq.trans (by simp : _ = (Q₁ ++ .comment c :: Q₂) ++ [q])) rfl
    obtain rfl := List.singleton_inj.1 hlast
    simp [hidle k text (by simp)] at htext

end Tape

section Closed

open Tape

variable {t : Dialect}

/-- A block ends in the token that closes it. -/
theorem closed_blockPieces (P : Tape) : (blockPieces t P).Closed := by
  refine Closed.cons (Closed.after ?_ P) _
  cases t with
  | brace => exact closed_sign .rbrace
  | block => exact closed_word .endKw

/-- A statement ends in a token. A conditional of the block dialect does so only with the
`ifEnd` that `Statement.framed` adds, so it is left out here. -/
theorem Statement.closed_inner : ∀ st : Statement,
    (∀ test body other, st = .ifThen test body other → t = .brace) → (st.inner t).Closed
  | .ifThen test body none, ht => by
    obtain rfl := ht _ _ _ rfl
    rw [Statement.inner]
    exact .cons (.after (.cons (.cons (.after (closed_sign _) _) _) _) _) _
  | .ifThen test body (some other), ht => by
    -- in the brace dialect the end of a chain of branches is the end of its last
    have hother := Statement.closed_inner other fun _ _ _ _ => ht _ _ _ rfl
    obtain rfl := ht _ _ _ rfl
    cases other with
    | block other =>
      rw [Statement.inner]
      exact .after (.cons (.cons (.after (closed_sign _) _) _) _) _
    | _ =>
      rw [Statement.inner]
      · exact .after (.cons (.cons hother _) _) _
      · nofun
  | .whileLoop .., _ | .forLoop .., _ => by
    rw [Statement.inner]
    exact .cons (.after (closed_blockPieces _) _) _
  | .throw _, _ | .ret (some _), _ => by
    rw [Statement.inner]
    exact .cons (.after (closed_sign _) _) _
  | .ret none, _ => .cons (closed_sign _) _
  | .expr _, _ => by
    rw [Statement.inner]
    exact .after (closed_sign _) _
  | .block _, _ => by
    rw [Statement.inner]
    exact closed_blockPieces _

/-- With its frame every statement is `Closed`. -/
theorem Statement.closed_pieces (st : Statement) : (st.pieces t).Closed := by
  cases st with
  | ifThen test body other =>
    cases t with
    | brace =>
      refine .cons ?_ _
      rw [show ifEnd .brace false = [] from rfl, List.append_nil]
      exact Statement.closed_inner _ fun _ _ _ _ => rfl
    | block => exact .cons (.after (closed_word .endKw) _) _
  | _ => exact Statement.closed_inner _ nofun

/-- Whatever is declared, apart from comments, is `Closed`. -/
theorem Declaration.closed_pieces {x : Declaration} (h : ∀ cs, x ≠ .comments cs) :
    (x.pieces t).Closed := by
  cases x with
  | function =>
    rw [Declaration.pieces]
    exact .after (.after (.cons (.cons (.after (closed_blockPieces _) _) _) _) _) _
  | var keyword name value exported =>
    cases value <;> rw [Declaration.pieces]
    · exact .after (.cons (.cons (closed_sign _) _) _) _
    · exact .after (.cons (.cons (.cons (.after (closed_sign _) _) _) _) _) _
  | vars =>
    rw [Declaration.pieces]
    exact .after (.cons (.cons (.after (.cons (.cons (.after (closed_sign _) _) _) _) _) _) _) _
  | statement st =>
    rw [Declaration.pieces]
    exact st.closed_pieces
  | comments cs => exact absurd rfl (h cs)

end Closed

/-! ## Comments at the end -/

namespace Declaration

/-- The comments that declarations end with, if the last one is `Declaration.comments`. -/
def ending : Block → List Comment
  | [] => []
  | [.comments cs] => cs
  | _ :: xs => ending xs

/-- Declarations without their `ending`. -/
def beforeEnding : Block → Block
  | [] => []
  | [.comments _] => []
  | x :: xs => x :: beforeEnding xs

theorem ending_declare (cs : List Comment) : ending (Comment.declare cs) = cs := by
  cases cs <;> rfl

theorem beforeEnding_declare (cs : List Comment) : beforeEnding (Comment.declare cs) = [] := by
  cases cs <;> rfl

variable {x : Declaration}

/-- What stands before a declaration that is no comment does not matter to the `ending`. -/
theorem ending_more (h : ∀ cs, x ≠ .comments cs) (cs : List Comment) (xs : Block) :
    ending (Comment.declare cs ++ x :: xs) = ending xs := by
  have hx : ending (x :: xs) = ending xs := by
    rw [ending]
    exact fun cs hcs _ => h cs hcs
  cases cs with
  | nil => exact hx
  | cons c cs =>
    rw [← hx, Comment.declare, List.singleton_append, ending]
    exact fun _ _ hnil => List.cons_ne_nil _ _ hnil

/-- It is kept by `beforeEnding`. -/
theorem beforeEnding_more (h : ∀ cs, x ≠ .comments cs) (cs : List Comment) (xs : Block) :
    beforeEnding (Comment.declare cs ++ x :: xs)
      = Comment.declare cs ++ x :: beforeEnding xs := by
  have hx : beforeEnding (x :: xs) = x :: beforeEnding xs := by
    rw [beforeEnding]
    exact fun cs hcs _ => h cs hcs
  cases cs with
  | nil => exact hx
  | cons c cs =>
    rw [← hx, Comment.declare, List.singleton_append, List.singleton_append, beforeEnding]
    exact fun _ _ hnil => List.cons_ne_nil _ _ hnil

end Declaration

/-- `Declaration.comments` is not read by `.declaration`; only the reading of a block makes it. -/
theorem Reads.ne_comments {d : Dialect} {S S' : Tape} {x : Declaration}
    (h : Reads d .declaration S x S') (cs : List Comment) : x ≠ .comments cs := by
  cases h <;> nofun

end Diglot

import Diglot.Reader
import Diglot.Tree.Build

/-!
# Grammars

The rules of the language call one another in circles: an expression may hold a block, a block holds
statements, and these hold expressions again. The circle is cut here. A `Grammar` is a record of
parsers for the phrases that can occur inside others, and each rule is a function of such a record;
a rule refers to the record only after it has gone past a token. Rules built on a grammar give the
next grammar, which can read phrases one token longer, and starting from the grammar that reads
nothing a grammar for any number of tokens is reached (`Diglot.Grammar.Program`).

- `Grammar`: the parsers that rules refer to.
- `Grammar.exhausted`: the grammar that reads nothing.
- `startsExpression`, `startsStatement`: what the first token of a phrase tells about it.
-/

namespace Diglot

/-- Parsers for the phrases that occur inside others. The ones whose name ends in `From` read on
from what has been read of the phrase already. -/
structure Grammar where
  /-- Assignments joined by commas. -/
  expr : Parser Expr
  /-- One further comma and assignment, and so on. -/
  sequenceFrom : Expr → Parser Expr
  assignment : Parser Expr
  /-- Operands joined by operators that bind at least as strongly as given. -/
  climb : Precedence → Parser Expr
  /-- One further operator and operand, and so on. -/
  climbFrom : Precedence → Expr → Parser Expr
  /-- An operand with the operators before it. -/
  unary : Parser Expr
  /-- Calls, indices and members after a value. -/
  memberFrom : Expr → Parser Expr
  /-- Further names of a path, each after a point. -/
  pathFrom : Expr → Parser Expr
  /-- Expressions up to a closing token, and whether a comma came last; the truth value tells
  whether one came right before. -/
  elements : TokenKind → Bool → Parser (List Expr × Bool)
  /-- Object entries up to the closing brace. -/
  entries : Parser (List Entry)
  /-- Names separated by commas. -/
  names : Parser (List String)
  /-- Declarations up to a token that begins none. -/
  declarations : Parser Block
  /-- What follows the word that begins a conditional. -/
  conditional : Parser Statement
  imports : Parser (List Import)

/-- The parser of a grammar that may not be entered any more: it fails with `Defect.depth`. -/
def Parser.exhausted {α : Type} : Parser α :=
  throw (.tree .depth)

/-- The grammar that reads nothing: every part is `Parser.exhausted`. -/
def Grammar.exhausted : Grammar where
  expr := .exhausted
  sequenceFrom _ := .exhausted
  assignment := .exhausted
  climb _ := .exhausted
  climbFrom _ _ := .exhausted
  unary := .exhausted
  memberFrom _ := .exhausted
  pathFrom _ := .exhausted
  elements _ _ := .exhausted
  entries := .exhausted
  names := .exhausted
  declarations := .exhausted
  conditional := .exhausted
  imports := .exhausted

/-! ## First tokens -/

/-- The `UnaryOp` that a token is. `new` is not among them: it is part of its operand. -/
def unaryOp? : TokenKind → Option UnaryOp
  | .punct .minus => some .neg
  | .punct .plus => some .plus
  | .punct .not => some .not
  | .punct .plusPlus => some .increment
  | .punct .minusMinus => some .decrement
  | .keyword .typeofKw => some .typeof
  | .keyword .awaitKw => some .await
  | _ => none

/-- The `StepOp` that a token is. -/
def stepOp? : TokenKind → Option StepOp
  | .punct .plusPlus => some .increment
  | .punct .minusMinus => some .decrement
  | _ => none

/-- The `BinaryOp` that a token is, among those that bind more strongly than assignments and
less strongly than operators before an operand. -/
def infixOp? : TokenKind → Option BinaryOp
  | .punct .orOr => some .or
  | .punct .andAnd => some .and
  | .punct .eqEq => some .eq
  | .punct .identical => some .strictEq
  | .punct .notEq => some .notEq
  | .punct .notIdentical => some .strictNotEq
  | .punct .less => some .lt
  | .punct .greater => some .gt
  | .punct .lessEq => some .ltEq
  | .punct .greaterEq => some .gtEq
  | .keyword .inKw => some .isIn
  | .punct .plus => some .add
  | .punct .minus => some .sub
  | .punct .star => some .mul
  | .punct .slash => some .div
  | .punct .percent => some .mod
  | .punct .starStar => some .exp
  | _ => none

/-- The `VarKeyword` that a token is. -/
def varKeyword? : TokenKind → Option VarKeyword
  | .keyword .letKw => some .letKw
  | .keyword .varKw => some .varKw
  | .keyword .constKw => some .constKw
  | _ => none

/-- Whether a token may begin an expression. `badString` counts, so that it is complained about
as such. -/
def startsExpression (d : Dialect) (k : TokenKind) : Bool :=
  k == d.functionWord ||
    match k with
    | .symbol | .boolean | .fixnum | .flonum | .string | .badString | .regexp => true
    | .punct .lparen | .punct .lbrace | .punct .lbrack => true
    | .keyword .newKw => true
    | k => (unaryOp? k).isSome

/-- Whether a token may begin a statement other than an expression, for which there is
`startsExpression`. -/
def startsStatement (d : Dialect) (k : TokenKind) : Bool :=
  k == d.blockOpen ||
    match k with
    | .keyword .ifKw | .keyword .whileKw | .keyword .forKw => true
    | .keyword .throwKw | .keyword .returnKw => true
    | _ => false

end Diglot

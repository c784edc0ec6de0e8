import Diglot.Number.Binary64
import Diglot.Tree.Operator

/-!
# Program trees

The tree of a program, the same for both dialects. Trees keep what the text of a program says, up to
layout: literals keep their spelling, parentheses around an expression are a node of their own, and
comments are declarations among others.

The types admit more than the grammar does, so that trees can also be put together by hand: the
arguments of a call can be any expression here, and so can what follows `else`. `Diglot.Tree.Build`
has the constructors that refuse such trees.

- `Literal`, `Key`, `Comment`, `Import`: the parts without subtrees.
- `Expr`, `Entry`, `Statement`, `Declaration`: the tree itself.
- `Program`: a whole file.
- `Expr.precedence`, `Expr.isArrow`, `Expr.isSymbolPath`: what a node is, seen from its parent.
-/

namespace Diglot

/-- A literal that stands for one value, with its spelling. Strings and regular expressions are not
decoded: their value is their spelling, quotes included. -/
inductive Literal where
  | boolean (value : Bool) (text : String)
  | fixnum (value : Int) (text : String)
  | flonum (value : Binary64) (text : String)
  | string (value : String) (text : String)
  | regexp (value : String) (text : String)
  deriving DecidableEq, Repr

/-- How a literal is spelled, whatever its value. -/
def Literal.text : Literal → String
  | boolean _ text | fixnum _ text | flonum _ text | string _ text | regexp _ text => text

/-- The key of an object entry: a name, or a string with its quotes. -/
inductive Key where
  | symbol (name : String)
  | string (value : String) (text : String)
  deriving DecidableEq, Repr

/-- How a key is spelled, a `string` with its quotes. -/
def Key.text : Key → String
  | symbol name => name
  | string _ text => text

/-- How a comment is delimited. -/
inductive CommentKind where
  | line | block
  deriving DecidableEq, Repr

/-- A comment, with its delimiters. -/
structure Comment where
  kind : CommentKind
  text : String
  deriving DecidableEq, Repr

/-- An import of names, or of a whole module under a name of its own. The path keeps its quotes. -/
inductive Import where
  | names (names : List String) (path : String)
  | whole (name : String) (path : String)
  deriving DecidableEq, Repr

mutual

/-- An expression. Beside what the grammar reads there are trees that `Expr.binary?` and its
like refuse. -/
inductive Expr where
  | symbol (name : String)
  | literal (value : Literal)
  /-- Parentheses around one expression. -/
  | grouping (inner : Expr)
  | unary (op : UnaryOp) (operand : Expr)
  | step (op : StepOp) (operand : Expr)
  | binary (op : BinaryOp) (left right : Expr)
  | ternary (test yes no : Expr)
  /-- A call, whose arguments are a `list` in a well-built tree. -/
  | call (callee arguments : Expr)
  | index (target position : Expr)
  | object (entries : List Entry)
  /-- A parenthesised list: a tuple, or the arguments of a call. -/
  | list (elements : List Expr) (trailingComma : Bool)
  | array (elements : List Expr)
  | function (name : Option String) (params : List String) (body : List Declaration)
  /-- An arrow function whose body is an expression. -/
  | arrow (params : List String) (body : Expr)
  /-- An arrow function whose body is a block. -/
  | arrowBlock (params : List String) (body : List Declaration)

/-- An entry of an object: a `Key` alone, which names the value as well, or a key with its
value. -/
inductive Entry where
  | shorthand (key : Key)
  | pair (key : Key) (value : Expr)

/-- A statement. -/
inductive Statement where
  /-- A conditional; in a well-built tree its other branch is a conditional or a block. -/
  | ifThen (test : Expr) (body : List Declaration) (other : Option Statement)
  | whileLoop (test : Expr) (body : List Declaration)
  /-- A loop over a collection; `bracketed` tells whether the names stood in brackets. -/
  | forLoop (keyword : Option VarKeyword) (names : List String) (collection : Expr)
      (body : List Declaration) (bracketed : Bool)
  | throw (value : Expr)
  | ret (value : Option Expr)
  | expr (value : Expr)
  | block (body : List Declaration)

/-- A declaration, a statement, or comments that stood before the next of them. -/
inductive Declaration where
  | function (name : String) (params : List String) (body : List Declaration)
      (exported isAsync : Bool)
  | var (keyword : VarKeyword) (name : String) (value : Option Expr) (exported : Bool)
  /-- Several names at once, in brackets. -/
  | vars (keyword : VarKeyword) (names : List String) (value : Expr) (exported : Bool)
  | statement (s : Statement)
  | comments (comments : List Comment)

end

/-- A block: each `Declaration` in it, in order. -/
abbrev Block := List Declaration

/-- A whole file, as `parseText` reads it and `printProgram` writes it. -/
structure Program where
  /-- Comments above the module line and the imports. -/
  leading : List Comment
  moduleName : Option String
  imports : List Import
  body : Block
  /-- The expected-output trailer as it is written, or nothing. -/
  trailer : String

/-- The file with nothing in it. For a text of blanks `parseText` gives no program at all
instead. -/
def Program.empty : Program :=
  { leading := [], moduleName := none, imports := [], body := [], trailer := "" }

namespace Expr

/-- Whether an expression is an arrow function, with either kind of body (`arrow`,
`arrowBlock`). -/
def isArrow : Expr → Bool
  | arrow .. | arrowBlock .. => true
  | _ => false

/-- Whether an expression is a parenthesised `list`. -/
def isList : Expr → Bool
  | list .. => true
  | _ => false

/-- Whether an expression is a name, that is, a `symbol`. -/
def isSymbol : Expr → Bool
  | symbol _ => true
  | _ => false

/-- Whether an expression is a name, or names joined by points: what `new` can be followed by. -/
def isSymbolPath : Expr → Bool
  | symbol _ => true
  | binary .dot left right => left.isSymbolPath && right.isSymbol
  | _ => false

/-- How strongly an expression binds: as its operator does (`BinaryOp.precedence`,
`UnaryOp.precedence`) where it has one. An arrow function binds as loosely as an assignment. -/
def precedence : Expr → Precedence
  | arrow .. | arrowBlock .. => .assignment
  | unary op _ => op.precedence
  | step .. => .step
  | binary op _ _ => op.precedence
  | ternary .. => .ternary
  | call .. | index .. => .member
  | symbol _ | literal _ | grouping _ | object _ | list .. | array _ | function .. => .atom

end Expr

end Diglot

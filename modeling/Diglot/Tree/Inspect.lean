import Diglot.Number.Shortest
import Diglot.Text.Quoted
import Diglot.Tree.Basic

/-!
# Inspected trees

A tree written on one line with the name of every node and field, for messages about trees that
were put together wrongly. Text is quoted and numbers are written in full.

- `Expr.inspect`, `Statement.inspect`, `Declaration.inspect`: the one-line form of a node.
- `BinaryOp.name`, `UnaryOp.name`, `StepOp.name`: the names of operators.
-/

namespace Diglot

/-! ## Forms -/

namespace Inspect

/-- A node with named fields, between braces and separated by commas. -/
def node (name : String) (fields : List (String × String)) : String :=
  name ++ " \x7b " ++ ", ".intercalate (fields.map fun (key, value) => key ++ ": " ++ value)
    ++ " \x7d"

/-- A node around one value. -/
def wrap (name value : String) : String :=
  name ++ "(" ++ value ++ ")"

/-- A list of values. -/
def list (values : List String) : String :=
  "[" ++ ", ".intercalate values ++ "]"

/-- A value that may be missing; where it is not, `wrap` marks it. -/
def optional : Option String → String
  | none => "None"
  | some value => wrap "Some" value

/-- A truth value. -/
def bool : Bool → String
  | true => "true"
  | false => "false"

/-- A `list` of texts, each of them quoted (`Text.quote`). -/
def texts (values : List String) : String :=
  list (values.map Text.quote)

/-- The parameters of a function: a `node` of its own. -/
def signature (params : List String) : String :=
  node "Signature" [("formal_parameter_names", texts params)]

/-- A block around the inspected form of what is in it: a `node` of its own. -/
def block (statements : List String) : String :=
  node "Block" [("statements", list statements)]

end Inspect

/-! ## Parts without subtrees -/

/-- The name of an operator in the inspected form; its `spelling` is for programs. -/
def BinaryOp.name : BinaryOp → String
  | comma => "Comma"
  | assign => "Assign"
  | addAssign => "AddAssign"
  | subAssign => "SubAssign"
  | mulAssign => "MulAssign"
  | divAssign => "DivAssign"
  | modAssign => "ModAssign"
  | or => "Or"
  | and => "And"
  | eq => "Eq"
  | strictEq => "StrictEq"
  | notEq => "NotEq"
  | strictNotEq => "StrictNotEq"
  | lt => "Lt"
  | gt => "Gt"
  | ltEq => "LtEq"
  | gtEq => "GtEq"
  | isIn => "In"
  | add => "Add"
  | sub => "Sub"
  | mul => "Mul"
  | div => "Div"
  | mod => "Mod"
  | exp => "Exp"
  | dot => "Dot"
  | new => "New"

/-- The name of an operator in the inspected form. An `increment` before its operand is told
apart from one after it (`StepOp.name`). -/
def UnaryOp.name : UnaryOp → String
  | neg => "Neg"
  | plus => "Plus"
  | not => "Not"
  | increment => "PreInc"
  | decrement => "PreDec"
  | typeof => "Typeof"
  | await => "Await"
  | new => "New"

/-- The name of an operator after its operand in the inspected form. -/
def StepOp.name : StepOp → String
  | increment => "Inc"
  | decrement => "Dec"

/-- The name of a declaring word. -/
def VarKeyword.name : VarKeyword → String
  | letKw => "Let"
  | varKw => "Var"
  | constKw => "Const"

/-- The inspected form of a literal: its value and its `text`. -/
def Literal.inspect : Literal → String
  | boolean value text => form "Boolean" (Inspect.bool value) text
  | fixnum value text => form "Fixnum" (toString value) text
  | flonum value text => form "Flonum" value.render text
  | string value text => form "String" (Text.quote value) text
  | regexp value text => form "Regexp" (Text.quote value) text
where
  /-- A value beside its spelling. -/
  form (name value text : String) : String :=
    Inspect.node name [("value", value), ("text", Text.quote text)]

/-- The inspected form of an object key, like that of a `symbol` or of a string. -/
def Key.inspect : Key → String
  | symbol name => Inspect.wrap "Symbol" (Text.quote name)
  | string value text =>
    Inspect.node "String" [("value", Text.quote value), ("text", Text.quote text)]

/-- The inspected form of a comment, its `text` quoted. -/
def Comment.inspect (c : Comment) : String :=
  let kind := match c.kind with
    | .line => "Line"
    | .block => "Block"
  Inspect.node "Comment" [("kind", kind), ("text", Text.quote c.text)]

/-! ## The tree -/

open Inspect in
mutual

/-- The inspected form of an expression. Functions are under `Literal` there, and a call and an
index under one name. -/
def Expr.inspect : Expr → String
  | .symbol name => wrap "Symbol" (Text.quote name)
  | .literal value => wrap "Literal" value.inspect
  | .grouping inner => wrap "Grouping" inner.inspect
  | .unary op operand => node "UnaryPrefix" [("op", op.name), ("operand", operand.inspect)]
  | .step op operand => node "UnaryPostfix" [("op", op.name), ("operand", operand.inspect)]
  | .binary op left right =>
    node "Binary" [("op", op.name), ("left", left.inspect), ("right", right.inspect)]
  | .ternary test yes no =>
    node "Ternary" [("test", test.inspect), ("if_true", yes.inspect), ("if_false", no.inspect)]
  | .call callee arguments =>
    node "PostCircumfix"
      [("circumfix", "Call"), ("left", callee.inspect), ("right", arguments.inspect)]
  | .index target position =>
    node "PostCircumfix"
      [("circumfix", "Index"), ("left", target.inspect), ("right", position.inspect)]
  | .object entries => wrap "Object" (list (Entry.inspectAll entries))
  | .list elements trailingComma =>
    node "List"
      [("elements", list (Expr.inspectAll elements)), ("trailing_comma", bool trailingComma)]
  | .array elements => wrap "Array" (list (Expr.inspectAll elements))
  | .function name params body =>
    wrap "Literal" (node "Function"
      [("name", optional (name.map Text.quote)), ("signature", signature params),
        ("body", block (Declaration.inspectAll body))])
  | .arrow params body =>
    wrap "Literal" (node "ArrowExpr" [("formals", texts params), ("expr", body.inspect)])
  | .arrowBlock params body =>
    wrap "Literal" (node "ArrowBlock"
      [("formals", texts params), ("block", block (Declaration.inspectAll body))])

/-- The inspected forms of expressions: `Expr.inspect` of each. -/
def Expr.inspectAll : List Expr → List String
  | [] => []
  | e :: es => e.inspect :: Expr.inspectAll es

/-- The inspected form of an object entry. A `shorthand` is a pair without a value. -/
def Entry.inspect : Entry → String
  | .shorthand key => node "Pair" [("key", key.inspect), ("value", optional none)]
  | .pair key value => node "Pair" [("key", key.inspect), ("value", optional (some value.inspect))]

/-- The inspected forms of object entries: `Entry.inspect` of each. -/
def Entry.inspectAll : List Entry → List String
  | [] => []
  | e :: es => e.inspect :: Entry.inspectAll es

/-- The inspected form of a statement; what may be missing is `optional`. -/
def Statement.inspect : Statement → String
  | .ifThen test body none =>
    node "If"
      [("test", test.inspect), ("body", block (Declaration.inspectAll body)),
        ("else_branch", optional none)]
  | .ifThen test body (some other) =>
    node "If"
      [("test", test.inspect), ("body", block (Declaration.inspectAll body)),
        ("else_branch", optional (some other.inspect))]
  | .whileLoop test body =>
    node "While" [("test", test.inspect), ("body", block (Declaration.inspectAll body))]
  | .forLoop keyword names collection body bracketed =>
    node "For"
      [("var_keyword", optional (keyword.map VarKeyword.name)), ("vars", texts names),
        ("collection", collection.inspect), ("body", block (Declaration.inspectAll body)),
        ("bracketed", bool bracketed)]
  | .throw value => wrap "Throw" value.inspect
  | .ret none => wrap "Return" (optional none)
  | .ret (some value) => wrap "Return" (optional (some value.inspect))
  | .expr value => wrap "Expression" value.inspect
  | .block body => wrap "Block" (block (Declaration.inspectAll body))

/-- The inspected form of a declaration; what may be missing is `optional`. -/
def Declaration.inspect : Declaration → String
  | .function name params body exported isAsync =>
    wrap "Function" (node "Function"
      [("name", Text.quote name), ("signature", signature params),
        ("body", block (Declaration.inspectAll body)), ("exported", bool exported),
        ("is_async", bool isAsync)])
  | .var keyword name none exported =>
    node "Variable"
      [("keyword", keyword.name), ("name", Text.quote name), ("initializer", optional none),
        ("exported", bool exported)]
  | .var keyword name (some value) exported =>
    node "Variable"
      [("keyword", keyword.name), ("name", Text.quote name),
        ("initializer", optional (some value.inspect)), ("exported", bool exported)]
  | .vars keyword names value exported =>
    node "Variables"
      [("keyword", keyword.name), ("names", texts names), ("initializer", value.inspect),
        ("exported", bool exported)]
  | .statement s => wrap "Statement" s.inspect
  | .comments comments => wrap "Comments" (list (comments.map Comment.inspect))

/-- The inspected forms of declarations: `Declaration.inspect` of each. -/
def Declaration.inspectAll : List Declaration → List String
  | [] => []
  | d :: ds => d.inspect :: Declaration.inspectAll ds

end

end Diglot

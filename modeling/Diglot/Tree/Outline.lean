import Diglot.Text.Quoted
import Diglot.Tree.Basic

/-!
# Outlines

A tree written one node to a line, each node two blanks further in than the node it belongs to.
Literals and names are written as they are spelled; comments and the trailer are quoted.

- `Outline`: lines with their depth.
- `Program.outline`, `Expr.outline`: the text of an outline.
-/

namespace Diglot

/-- The lines of an outline, as `Outline.line` makes them. -/
abbrev Outline := List String

namespace Outline

/-- A line of an outline, two blanks further in for each step of `depth`. -/
def line (depth : Nat) (text : String) : Outline :=
  [String.ofList (List.replicate (2 * depth) ' ') ++ text]

/-- The text of an outline: every line ends with a line feed. -/
def render (o : Outline) : String :=
  String.join (o.map (· ++ "\n"))

/-- Names separated by commas. -/
def names (ns : List String) : String :=
  ", ".intercalate ns

/-- The word before an exported declaration. -/
def exportWord (exported : Bool) : String :=
  if exported then "export " else ""

/-- The line of a comment, with its text quoted (`Text.quote`). -/
def comment (depth : Nat) (c : Comment) : Outline :=
  line depth ("comment " ++ Text.quote c.text)

/-- The line of an import, which looks like the import itself. -/
def importLine (depth : Nat) : Import → Outline
  | .names ns path => line depth ("import \x7b " ++ names ns ++ " \x7d from " ++ path)
  | .whole name path => line depth ("import * as " ++ name ++ " from " ++ path)

/-- The line of a literal: its class and its `text`. -/
def literal (depth : Nat) : Literal → Outline
  | .boolean _ text => line depth ("boolean " ++ text)
  | .fixnum _ text => line depth ("fixnum " ++ text)
  | .flonum _ text => line depth ("flonum " ++ text)
  | .string _ text => line depth ("string " ++ text)
  | .regexp _ text => line depth ("regexp " ++ text)

mutual

/-- The outline of an expression: a `line` for the node, and the outlines of its parts one step
further in. -/
def expr (depth : Nat) : Expr → Outline
  | .symbol name => line depth ("symbol " ++ name)
  | .literal value => literal depth value
  | .grouping inner => line depth "grouping" ++ expr (depth + 1) inner
  | .unary op operand => line depth ("prefix " ++ op.spelling) ++ expr (depth + 1) operand
  | .step op operand => line depth ("postfix " ++ op.spelling) ++ expr (depth + 1) operand
  | .binary op left right =>
    line depth ("binary " ++ op.spelling) ++ expr (depth + 1) left ++ expr (depth + 1) right
  | .ternary test yes no =>
    line depth "ternary" ++ expr (depth + 1) test ++ expr (depth + 1) yes ++ expr (depth + 1) no
  | .call callee arguments =>
    line depth "call" ++ expr (depth + 1) callee ++ expr (depth + 1) arguments
  | .index target position =>
    line depth "index" ++ expr (depth + 1) target ++ expr (depth + 1) position
  | .object es => line depth "object" ++ entries (depth + 1) es
  | .list elements trailingComma =>
    line depth (if trailingComma then "list trailing-comma" else "list")
      ++ exprs (depth + 1) elements
  | .array elements => line depth "array" ++ exprs (depth + 1) elements
  | .function name params body =>
    line depth ("function-literal " ++ name.getD "" ++ "(" ++ names params ++ ")")
      ++ block (depth + 1) body
  | .arrow params body =>
    line depth ("arrow (" ++ names params ++ ")") ++ expr (depth + 1) body
  | .arrowBlock params body =>
    line depth ("arrow-block (" ++ names params ++ ")") ++ block (depth + 1) body

/-- The outlines of expressions, one after the other, all at one `depth`. -/
def exprs (depth : Nat) : List Expr → Outline
  | [] => []
  | e :: es => expr depth e ++ exprs depth es

/-- The outline of an object entry: its `Key.text`, and its value one step further in. -/
def entry (depth : Nat) : Entry → Outline
  | .shorthand key => line depth ("pair " ++ key.text)
  | .pair key value => line depth ("pair " ++ key.text) ++ expr (depth + 1) value

/-- The outlines of object entries, one after the other, all at one `depth`. -/
def entries (depth : Nat) : List Entry → Outline
  | [] => []
  | e :: es => entry depth e ++ entries depth es

/-- The outline of a statement. An expression stands for itself (`Outline.expr`). -/
def statement (depth : Nat) : Statement → Outline
  | .ifThen test body none =>
    line depth "if" ++ expr (depth + 1) test ++ line (depth + 1) "then" ++ block (depth + 2) body
  | .ifThen test body (some other) =>
    line depth "if" ++ expr (depth + 1) test ++ line (depth + 1) "then" ++ block (depth + 2) body
      ++ line (depth + 1) "else" ++ statement (depth + 2) other
  | .whileLoop test body =>
    line depth "while" ++ expr (depth + 1) test ++ line (depth + 1) "do" ++ block (depth + 2) body
  | .forLoop keyword ns collection body bracketed =>
    let word := match keyword with
      | some k => k.spelling ++ " "
      | none => ""
    let bound := if bracketed then "[" ++ names ns ++ "]" else names ns
    line depth ("for " ++ word ++ bound ++ " of") ++ expr (depth + 1) collection
      ++ line (depth + 1) "do" ++ block (depth + 2) body
  | .throw value => line depth "throw" ++ expr (depth + 1) value
  | .ret none => line depth "return"
  | .ret (some value) => line depth "return" ++ expr (depth + 1) value
  | .expr value => expr depth value
  | .block body => line depth "block" ++ block (depth + 1) body

/-- The outline of a declaration. A statement stands for itself (`Outline.statement`). -/
def declaration (depth : Nat) : Declaration → Outline
  | .function name params body exported isAsync =>
    line depth (exportWord exported ++ (if isAsync then "async " else "") ++ "function " ++ name
        ++ "(" ++ names params ++ ")")
      ++ block (depth + 1) body
  | .var keyword name none exported =>
    line depth (exportWord exported ++ keyword.spelling ++ " " ++ name)
  | .var keyword name (some value) exported =>
    line depth (exportWord exported ++ keyword.spelling ++ " " ++ name) ++ expr (depth + 1) value
  | .vars keyword ns value exported =>
    line depth (exportWord exported ++ keyword.spelling ++ " [" ++ names ns ++ "]")
      ++ expr (depth + 1) value
  | .statement s => statement depth s
  | .comments cs => line depth "comments" ++ cs.flatMap (comment (depth + 1))

/-- The outlines of declarations, one after the other, all at one `depth`. -/
def block (depth : Nat) : List Declaration → Outline
  | [] => []
  | d :: ds => declaration depth d ++ block depth ds

end

/-- The outline of a whole file. Everything in it is one step further in than its first `line`. -/
def program (p : Program) : Outline :=
  let moduleLine := match p.moduleName with
    | some name => line 1 ("module " ++ name)
    | none => []
  let trailer := if p.trailer.isEmpty then [] else line 1 ("trailer " ++ Text.quote p.trailer)
  line 0 "unit" ++ p.leading.flatMap (comment 1) ++ moduleLine ++ p.imports.flatMap (importLine 1)
    ++ block 1 p.body ++ trailer

end Outline

/-- The outline of an expression as text: `Outline.expr` from the margin on. -/
def Expr.outline (e : Expr) : String :=
  (Outline.expr 0 e).render

/-- The outline of a whole file as text: the lines of `Outline.program`. -/
def Program.outline (p : Program) : String :=
  (Outline.program p).render

end Diglot

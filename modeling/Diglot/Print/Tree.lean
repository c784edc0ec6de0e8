import Diglot.Layout.Doc
import Diglot.Print.Surface
import Diglot.Tree.Basic

/-!
# Printed trees

The document of a tree in the spellings of a surface. Parentheses are added only where a node binds
less strongly than its place asks for, and where a statement or the body of an arrow function would
otherwise read as something else.

- `Expr.fitted`: a document in parentheses if its place asks for them.
- `Expr.leftmost`, `Expr.readsAsBlock`, `Expr.isAmbiguous`: what a printed expression begins with.
- `Expr.doc`, `Statement.doc`, `Declaration.doc`, `Program.doc`: the documents.
-/

namespace Diglot

/-! ## Parentheses -/

namespace Expr

/-- The document of an expression where an operand of at least the strength `required` is asked
for: in parentheses if its `precedence` is less. -/
def fitted (required : Precedence) (e : Expr) (doc : Doc) : Doc :=
  if e.precedence < required then "(" ++ doc ++ ")" else doc

/-- The node whose text comes first when an expression is printed. `new` comes before its
operands. -/
def leftmost : Expr → Expr
  | .binary .new left right => .binary .new left right
  | .binary _ left _ => left.leftmost
  | .ternary test _ _ => test.leftmost
  | .call callee _ => callee.leftmost
  | .index target _ => target.leftmost
  | .step _ operand => operand.leftmost
  | e => e

/-- Whether a printed expression begins with an opening brace that would begin a block
(`braceOpensBlock`). -/
def readsAsBlock (s : Surface) (e : Expr) : Bool :=
  match e.leftmost with
  | .object _ => s.braceOpensBlock
  | _ => false

/-- Whether a printed expression would not be read as an expression at the start of a statement:
it `readsAsBlock`, or begins with the word of a function. -/
def isAmbiguous (s : Surface) (e : Expr) : Bool :=
  match e.leftmost with
  | .object _ => s.braceOpensBlock
  | .function .. => true
  | _ => false

end Expr

/-- Whether an operator before its operand would run into an operator that the operand begins
with. -/
def UnaryOp.mergesWith : UnaryOp → Expr → Bool
  | .neg, .unary .neg _ | .neg, .unary .decrement _ => true
  | .plus, .unary .plus _ | .plus, .unary .increment _ => true
  | _, _ => false

/-- The blank between an operator and its operand, where there has to be one: after a word
(`isWord`), and where the two would run together (`mergesWith`). -/
def UnaryOp.gap (op : UnaryOp) (operand : Expr) : Doc :=
  .when (op.isWord || op.mergesWith operand) " "

namespace BinaryOp

/-- The strengths that `fitted` asks of the left and right operands of an operator. Before a
power sign no operator may stand on the left, which asks for more than the grouping does. -/
def required : BinaryOp → Precedence × Precedence
  | .exp => (.step, BinaryOp.exp.precedence)
  | op =>
    if op.isRightAssociative then (op.precedence + 1, op.precedence)
    else (op.precedence, op.precedence + 1)

/-- An operator with the blanks around it. A `comma` has none before it. -/
def infixText : BinaryOp → Doc
  | .comma => ", "
  | op => " " ++ op.spelling ++ (" " : Doc)

end BinaryOp

/-! ## Parts without subtrees -/

namespace Print

/-- Names separated by commas. -/
def names (ns : List String) : Doc :=
  ", ".intercalate ns

/-- The parameters of a function (`Print.names`), in parentheses. -/
def signature (params : List String) : Doc :=
  "(" ++ names params ++ (")" : Doc)

/-- The parameters and the arrow of an arrow function. -/
def arrowHead (params : List String) : Doc :=
  "(" ++ names params ++ (") => " : Doc)

/-- The word before an exported declaration. -/
def exportWord (exported : Bool) : Doc :=
  .when exported "export "

/-- Declarations between the delimiters of a block, `blockOpen` and `blockClose`. -/
def block (s : Surface) (body : Doc) : Doc :=
  s.blockOpen ++ Doc.indented "  " body ++ Doc.freshLine ++ s.blockClose

/-- The header of a conditional or a loop, between `headerOpen` and `headerClose`. -/
def header (s : Surface) (test : Doc) : Doc :=
  s.headerOpen ++ test ++ s.headerClose

/-- A conditional up to its other branch: with a `header` and a block, or with the `thenWord`
and declarations that nothing ends yet. What is `further` begins with another word there. -/
def branch (s : Surface) (further : Bool) (test body : Doc) : Doc :=
  match s.thenWord with
  | none => "if " ++ header s test ++ " " ++ block s body
  | some word =>
    (if further then "elsif" else "if") ++ (" " : Doc) ++ test ++ " " ++ word
      ++ Doc.indented "  " body

/-- What stands before a `further` conditional: a word, or only a fresh line where the
conditional begins with a word of its own. -/
def beforeElsif (s : Surface) : Doc :=
  match s.thenWord with
  | none => " else "
  | some _ => .freshLine

/-- The last branch of a conditional: a block of its own, or declarations that share the end
(`conditionalEnd`). -/
def elseBlock (s : Surface) (body : Doc) : Doc :=
  match s.thenWord with
  | none => " else " ++ block s body
  | some _ => Doc.freshLine ++ "else" ++ Doc.indented "  " body

/-- The end of a conditional. Where the branches share one (`thenWord`), only the first
conditional writes it. -/
def conditionalEnd (s : Surface) (further : Bool) : Doc :=
  match s.thenWord, further with
  | some _, false => Doc.freshLine ++ s.blockClose
  | _, _ => .empty

/-- The widest import that stays on its line (`importLine`). -/
def importWidth : Nat := 72

/-- The names of an import after the `firstName`, one to a line. -/
def importLines : List String → Doc
  | [] => .empty
  | n :: ns => Doc.freshLine ++ ", " ++ n ++ importLines ns

/-- The first of the names of an import. -/
def firstName : List String → Doc
  | [] => .empty
  | n :: _ => n

/-- An import. A list of names that would make the line wider than `importWidth` is wrapped. -/
def importLine : Import → Doc
  | .names ns path =>
    let inline := "import \x7b " ++ ", ".intercalate ns ++ " \x7d from " ++ path ++ ";"
    let wrapped := "import \x7b " ++ firstName ns
      ++ Doc.indented "       "
        (importLines ns.tail ++ Doc.freshLine ++ "\x7d from " ++ path ++ ";")
    Doc.freshLine ++ Doc.within importWidth inline wrapped
  | .whole name path =>
    Doc.freshLine ++ ("import * as " ++ name ++ " from " ++ path ++ ";" : String)

/-- Comments, each on a line of its own. -/
def comments : List Comment → Doc
  | [] => .empty
  | c :: cs => Doc.freshLine ++ c.text ++ comments cs

end Print

/-! ## The tree -/

open Print in
mutual

/-- The document of an expression, without the parentheses that its place may ask for
(`fitted`). -/
def Expr.doc (s : Surface) : Expr → Doc
  | .symbol name => name
  | .literal value => value.text
  | .grouping inner => "(" ++ Expr.fitted .comma inner (inner.doc s) ++ ")"
  | .unary .new operand =>
    if operand.isSymbolPath then "new " ++ Expr.fitted .member operand (operand.doc s)
    else .fault .newTarget
  | .unary op operand =>
    op.spelling ++ op.gap operand ++ Expr.fitted .unary operand (operand.doc s)
  | .step op operand => Expr.fitted (.step + 1) operand (operand.doc s) ++ op.spelling
  -- a tree that was put together by hand may hold parts that have no text
  | .binary .new left right =>
    if !left.isSymbolPath then .fault .newTarget
    else if !right.isList then .fault .newArguments
    else "new " ++ Expr.fitted .member left (left.doc s) ++ right.doc s
  | .binary .dot left right =>
    match right with
    | .symbol name => Expr.fitted .member left (left.doc s) ++ "." ++ name
    | _ => .fault .memberName
  | .binary op left right =>
    Expr.fitted op.required.1 left (left.doc s) ++ op.infixText
      ++ Expr.fitted op.required.2 right (right.doc s)
  | .ternary test yes no =>
    Expr.fitted (.ternary + 1) test (test.doc s) ++ " ? "
      ++ Expr.fitted .assignment yes (yes.doc s) ++ " : "
      ++ Expr.fitted .assignment no (no.doc s)
  | .call callee arguments =>
    if arguments.isList then Expr.fitted .member callee (callee.doc s) ++ arguments.doc s
    else .fault .callArguments
  | .index target position =>
    Expr.fitted .member target (target.doc s) ++ "["
      ++ Expr.fitted .comma position (position.doc s) ++ "]"
  | .object es => Doc.laidOut "\x7b" "\x7d" (Entry.docs s es)
  | .array elements => Doc.laidOut "[" "]" (Expr.docs s elements)
  | .list elements trailingComma =>
    "(" ++ Doc.join ", " (Expr.docs s elements) ++ Doc.when trailingComma "," ++ ")"
  | .function name params body =>
    s.functionWord ++ (match name with | some n => " " ++ n | none => (.empty : Doc))
      ++ signature params ++ " " ++ block s (Declaration.docs s body)
  | .arrow params body =>
    arrowHead params ++
      -- an object would be taken for a block after the arrow
      if body.readsAsBlock s then "(" ++ Expr.fitted .comma body (body.doc s) ++ ")"
      else Expr.fitted .assignment body (body.doc s)
  | .arrowBlock params body => arrowHead params ++ block s (Declaration.docs s body)

/-- The documents of the elements of a list, each `fitted` so that no comma stands bare in it. -/
def Expr.docs (s : Surface) : List Expr → List Doc
  | [] => []
  | e :: es => Expr.fitted .assignment e (e.doc s) :: Expr.docs s es

/-- The document of an object entry: its `Key.text`, and its value if it is a `pair`. -/
def Entry.doc (s : Surface) : Entry → Doc
  | .shorthand key => key.text
  | .pair key value => key.text ++ ": " ++ Expr.fitted .assignment value (value.doc s)

/-- The documents of object entries: `Entry.doc` of each. -/
def Entry.docs (s : Surface) : List Entry → List Doc
  | [] => []
  | e :: es => e.doc s :: Entry.docs s es

/-- The document of a statement, from the place on its line where it begins; `further` tells that a
conditional goes on from another one. -/
def Statement.doc (s : Surface) (further : Bool) : Statement → Doc
  | .ifThen test body none =>
    branch s further (Expr.fitted .comma test (test.doc s)) (Declaration.docs s body)
      ++ conditionalEnd s further
  | .ifThen test body (some (.block other)) =>
    branch s further (Expr.fitted .comma test (test.doc s)) (Declaration.docs s body)
      ++ elseBlock s (Declaration.docs s other) ++ conditionalEnd s further
  | .ifThen test body (some (.ifThen t b o)) =>
    branch s further (Expr.fitted .comma test (test.doc s)) (Declaration.docs s body)
      ++ beforeElsif s ++ Statement.doc s true (.ifThen t b o) ++ conditionalEnd s further
  -- nothing but a block or a conditional can follow `else`
  | .ifThen test body (some _) =>
    branch s further (Expr.fitted .comma test (test.doc s)) (Declaration.docs s body)
      ++ Doc.fault .elseBranch
  | .whileLoop test body =>
    "while " ++ header s (Expr.fitted .comma test (test.doc s)) ++ " "
      ++ block s (Declaration.docs s body)
  | .forLoop keyword ns collection body bracketed =>
    "for " ++ s.headerOpen
      ++ (match keyword with | some k => k.spelling ++ " " | none => (.empty : Doc))
      ++ (if bracketed then "[" ++ names ns ++ "]" else names ns) ++ " of "
      ++ Expr.fitted .comma collection (collection.doc s) ++ s.headerClose ++ " "
      ++ block s (Declaration.docs s body)
  | .throw value => "throw " ++ Expr.fitted .comma value (value.doc s) ++ ";"
  | .ret none => "return" ++ (";" : Doc)
  | .ret (some value) => "return" ++ (" " : Doc) ++ Expr.fitted .comma value (value.doc s) ++ ";"
  | .expr value =>
    (if value.isAmbiguous s then "(" ++ Expr.fitted .comma value (value.doc s) ++ ")"
      else Expr.fitted .comma value (value.doc s)) ++ ";"
  | .block body => block s (Declaration.docs s body)

/-- The document of a declaration, with the fresh line that it begins on. A function has a
`lineFeed` before that. -/
def Declaration.doc (s : Surface) : Declaration → Doc
  | .function name params body exported isAsync =>
    Doc.lineFeed ++ Doc.freshLine ++ exportWord exported
      ++ Doc.when isAsync "async " ++ s.functionWord ++ " " ++ name
      ++ signature params ++ " " ++ block s (Declaration.docs s body)
  | .var keyword name none exported =>
    Doc.freshLine ++ exportWord exported ++ keyword.spelling ++ " " ++ name ++ ";"
  | .var keyword name (some value) exported =>
    Doc.freshLine ++ exportWord exported ++ keyword.spelling ++ " " ++ name ++ " = "
      ++ Expr.fitted .assignment value (value.doc s) ++ ";"
  | .vars keyword ns value exported =>
    Doc.freshLine ++ exportWord exported ++ keyword.spelling ++ " [" ++ names ns ++ "] = "
      ++ Expr.fitted .assignment value (value.doc s) ++ ";"
  | .statement st => Doc.freshLine ++ Statement.doc s false st
  | .comments cs => comments cs

/-- The documents of declarations (`Declaration.doc`), one after the other. -/
def Declaration.docs (s : Surface) : List Declaration → Doc
  | [] => .empty
  | d :: ds => d.doc s ++ Declaration.docs s ds

end

/-- The document of a whole file. It ends with a line feed unless nothing comes before it
(`Emitter.lineFeed`). -/
def Program.doc (s : Surface) (p : Program) : Doc :=
  let moduleLine := match p.moduleName with
    | some name => Doc.freshLine ++ s.moduleLead ++ name ++ ";"
    | none => .empty
  let trailer := if p.trailer.isEmpty then .empty else Doc.lineFeed ++ Doc.freshLine ++ p.trailer
  Print.comments p.leading ++ moduleLine ++ Doc.concat (p.imports.map Print.importLine)
    ++ Declaration.docs s p.body ++ trailer ++ Doc.lineFeed

end Diglot

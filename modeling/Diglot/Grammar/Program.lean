import Diglot.Grammar.Declaration

/-!
# Programs

The rules for a whole file, and the grammar that all rules make together. A grammar of depth `n`
serves phrases of fewer than `n` tokens, since a rule refers to the grammar below it only after it
has gone past a token; so the number of tokens of a text bounds the depth that its reading needs.

- `Rules.deeper`: the grammar one deeper than another.
- `Grammar.ofDepth`: the grammar of a depth.
- `parse`: the program that a lexer's text holds.
- `parseText`, `parseExpr`: the program, or the lone expression, that a text is.
-/

namespace Diglot

namespace Rules

open Diglot.Parser

variable (d : Dialect) (g : Grammar)

/-! ## Imports -/

/-- The path of an import, after its word. -/
def modulePath : Parser String := do
  let _ ← consume (.keyword .fromKw) (.token (.keyword .fromKw))
  return (← consume .string .modulePath).text

/-- What an import names, and its `modulePath`. -/
def importedNames : Parser Import := do
  if ← take (.punct .star) then
    let _ ← consume (.keyword .asKw) (.tokenAfter (.keyword .asKw) "import *")
    let name ← consume .symbol (.tokenAfter .symbol "as")
    return .whole name.text (← modulePath)
  else
    let _ ← consume (.punct .lbrace) (.tokenAfter (.punct .lbrace) "import")
    let names ← g.names
    let _ ← consume (.punct .rbrace) (.commaOr (.punct .rbrace))
    return .names names (← modulePath)

/-- Imports (`importedNames`), up to a token that begins none. -/
def imports : Parser (List Import) := do
  if ← take (.keyword .importKw) then
    let first ← importedNames g
    semicolon d
    return first :: (← g.imports)
  else
    return []

/-! ## The file -/

/-- The module line at the start of a file, if there is one. It ends like a statement
(`semicolon`). -/
def moduleLine : Parser (Option String) := do
  if ← take (.keyword .moduleKw) then
    let name ← consume .symbol (.tokenAfter .symbol "module")
    semicolon d
    return some name.text
  else
    return none

/-- A whole file, with the trailer found among its tokens (`Token.trailer?`). A file of blanks
alone holds no program. -/
def program? (trailer : Option String) : Parser (Option Program) := do
  let leading ← takeComments
  if (← current).isEof && leading.isEmpty && trailer.isNone then
    return none
  else
    let moduleName ← moduleLine d
    -- comments before the imports belong to the file, comments before the body to the body
    let beforeImports ←
      if ← is (.keyword .importKw) then
        takeComments
      else
        pure []
    let imports ← imports d g
    let body ← declarations d g
    let _ ← consume .eof (.declarationOr .eof)
    return some
      { leading := leading ++ beforeImports, moduleName, imports, body,
        trailer := trailer.getD "" }

/-- An `expr` that is all there is. -/
def loneExpr : Parser Expr := do
  let e ← expr d g
  let _ ← consume .eof .endOfExpression
  return e

/-! ## The grammar -/

/-- The grammar one deeper than `g`: its rules are built on those of `g`. -/
def deeper : Grammar where
  expr := expr d g
  sequenceFrom := sequenceFrom g
  assignment := assignment d g
  climb := climb d g
  climbFrom := climbFrom g
  unary := unary d g
  memberFrom := memberFrom g
  pathFrom := pathFrom g
  elements := elements d g
  entries := entries d g
  names := names g
  declarations := declarations d g
  conditional := conditional d g
  imports := imports d g

end Rules

/-- The grammar of a depth: so many times `deeper` than the one that is `exhausted`. -/
def Grammar.ofDepth (d : Dialect) : Nat → Grammar
  | 0 => .exhausted
  | n + 1 => Rules.deeper d (ofDepth d n)

/-- Runs a rule on a text, with the grammar that is deep enough for it (`Grammar.ofDepth`). -/
def Lexer.run {α : Type} (l : Lexer) (rule : Grammar → Parser α) : Except Error α :=
  let reader := Reader.ofWords l.loc (Word.gather [] l.tokens)
  let g := Grammar.ofDepth l.dialect reader.ahead.length
  ((rule g).run reader).map Prod.fst

/-- The program that a lexer's text holds, if it holds anything but blanks: what
`Rules.program?` reads. -/
def parse (l : Lexer) : Except Error (Option Program) :=
  l.run fun g => Rules.program? l.dialect g (Token.trailer? l.tokens)

/-- The program of a file, from its text: `parse` from the start. -/
def parseText (d : Dialect) (file text : String) : Except Error (Option Program) :=
  parse (.ofText d file text)

/-- The file name that errors of `parseExpr` give. -/
def exprFile : String := "<expr>"

/-- The expression that a text is: what `Rules.loneExpr` reads. -/
def parseExpr (d : Dialect) (text : String) : Except Error Expr :=
  (Lexer.ofText d exprFile text).run (Rules.loneExpr d)

end Diglot

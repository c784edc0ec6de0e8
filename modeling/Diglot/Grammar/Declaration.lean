import Diglot.Grammar.Expression

/-!
# Statements and declarations

The rules for everything that stands in a block. The dialects differ here only in how headers are
delimited, in the words of a conditional, and in the semicolons that may be left out.

- `Rules.endStatement`: the end of a statement.
- `Rules.conditional`, `Rules.whileLoop`, `Rules.forLoop`, `Rules.statement?`: statements.
- `Rules.declaration?`, `Rules.declarations`: what a block holds.
-/

namespace Diglot.Rules

open Diglot.Parser

variable (d : Dialect) (g : Grammar)

/-! ## Ends and headers -/

/-- The tokens that close a construct of the block dialect, before which `endStatement` asks for
no semicolon. -/
def closesConstruct : TokenKind → Bool
  | .keyword .endKw | .keyword .elseKw | .keyword .elsifKw | .eof => true
  | _ => false

/-- The semicolon at the end of a statement. The block dialect does without it before a token
that `closesConstruct`. -/
def endStatement (what : Expectation) : Parser Unit := do
  if ← take (.punct .semicolon) then
    return ()
  else if d.isBlock && closesConstruct (← kind) then
    return ()
  else
    unexpected what

/-- The end of a statement that nothing else may follow: `endStatement` with the plainest
message. -/
def semicolon : Parser Unit :=
  endStatement d (.token (.punct .semicolon))

/-- Whether the current token is the plain assignment sign; compound ones are of the kind
`assign` too. -/
def isPlainAssign : Parser Bool :=
  return (← kind) == .assign && (← current).text == "="

/-- The `names` separated by commas, at least one. -/
def someNames : Parser (List String) := do
  let names ← names g
  if names.isEmpty then unexpected (.token .symbol) else return names

/-! ## Statements -/

/-- A conditional of the brace dialect, after its first word. -/
def braceConditional : Parser Statement := do
  let _ ← consume (.punct .lparen) (.tokenAfter (.punct .lparen) "if")
  let test ← expr d g
  let _ ← consume (.punct .rparen) (.tokenAfter (.punct .rparen) "if (EXPRESSION")
  let body ← block d g .ifHeader
  if ← take (.keyword .elseKw) then
    if ← take (.keyword .ifKw) then
      return .ifThen test body (some (← g.conditional))
    else
      return .ifThen test body (some (.block (← block d g .elseBranch)))
  else
    return .ifThen test body none

/-- A conditional of the block dialect, after its first word. A further test is a conditional in the
other branch, and only the innermost one goes past the closing word. -/
def blockConditional : Parser Statement := do
  let test ← expr d g
  let _ ← consume (.keyword .thenKw) (.tokenAfter (.keyword .thenKw) "if EXPRESSION")
  let body ← g.declarations
  if ← take (.keyword .elsifKw) then
    -- the conditional in the other branch reads the closing word for both
    return .ifThen test body (some (← g.conditional))
  else if ← take (.keyword .elseKw) then
    let other ← g.declarations
    let _ ← consume (.keyword .endKw) (.declarationOr (.keyword .endKw))
    return .ifThen test body (some (.block other))
  else
    let _ ← consume (.keyword .endKw) .branchEnd
    return .ifThen test body none

/-- A conditional, after its first word: `braceConditional` or `blockConditional`. -/
def conditional : Parser Statement :=
  match d with
  | .brace => braceConditional d g
  | .block => blockConditional d g

/-- A loop with a test, after its first word. -/
def whileLoop : Parser Statement :=
  match d with
  | .brace => do
    let _ ← consume (.punct .lparen) (.tokenAfter (.punct .lparen) "while")
    let test ← expr d g
    let _ ← consume (.punct .rparen) (.tokenAfter (.punct .rparen) "while (EXPRESSION")
    return .whileLoop test (← block d g .whileHeader)
  | .block => do
    let test ← expr d g
    return .whileLoop test (← block d g .whileTest)

/-- The names (`someNames`) that a loop over a collection declares, perhaps in brackets. -/
def loopNames (bracketed : Bool) : Parser (List String) := do
  let names ← someNames g
  if bracketed then
    let _ ← consume (.punct .rbrack) (.token (.punct .rbrack))
  return names

/-- The header of a loop over a collection: its declaring word, its names, whether they stand in
brackets, and the collection. -/
def loopHeader : Parser (Option VarKeyword × List String × Bool × Expr) := do
  let keyword := varKeyword? (← kind)
  if keyword.isSome then
    let _ ← advance
  let bracketed ← take (.punct .lbrack)
  let names ← loopNames g bracketed
  let _ ← consume (.keyword .ofKw) (.token (.keyword .ofKw))
  let collection ← expr d g
  return (keyword, names, bracketed, collection)

/-- A loop over a collection (`loopHeader`), after its first word. -/
def forLoop : Parser Statement :=
  match d with
  | .brace => do
    let _ ← consume (.punct .lparen) (.tokenAfter (.punct .lparen) "for")
    let (keyword, names, bracketed, collection) ← loopHeader d g
    let _ ← consume (.punct .rparen) (.tokenAfter (.punct .rparen) "for (...")
    return .forLoop keyword names collection (← block d g .forHeader) bracketed
  | .block => do
    let (keyword, names, bracketed, collection) ← loopHeader d g
    return .forLoop keyword names collection (← block d g .forCollection) bracketed

/-- A statement, or nothing when the current token begins none, neither by `startsStatement` nor
by `startsExpression`. -/
def statement? : Parser (Option Statement) := do
  let k ← kind
  match k with
  | .keyword .ifKw =>
    let _ ← advance
    return some (← conditional d g)
  | .keyword .whileKw =>
    let _ ← advance
    return some (← whileLoop d g)
  | .keyword .forKw =>
    let _ ← advance
    return some (← forLoop d g)
  | .keyword .throwKw =>
    let _ ← advance
    let value ← expr d g
    semicolon d
    return some (.throw value)
  | .keyword .returnKw =>
    let _ ← advance
    let value ←
      if startsExpression d (← kind) then
        pure (some (← expr d g))
      else
        pure none
    semicolon d
    return some (.ret value)
  | _ =>
    if k = d.blockOpen then
      return some (.block (← block d g .statement))
    else if startsExpression d k then
      let value ← expr d g
      semicolon d
      return some (.expr value)
    else
      return none

/-! ## Declarations -/

/-- A declared function, from its first word on (`functionWord`). -/
def functionDeclaration (exported isAsync : Bool) : Parser Declaration := do
  let _ ← advance
  let name ← consume .symbol .functionName
  let params ← signature g
  let body ← block d g .functionBody
  return .function name.text params body exported isAsync

/-- Several variables in brackets, after the opening one. They need a value, given with
`isPlainAssign`. -/
def bracketedVariables (keyword : VarKeyword) (exported : Bool) : Parser Declaration := do
  let names ← someNames g
  let _ ← consume (.punct .rbrack) (.token (.punct .rbrack))
  if ← isPlainAssign then
    let _ ← advance
    let value ← assignment d g
    semicolon d
    return .vars keyword names value exported
  else
    unexpected .bracketedValue

/-- Declared variables, from their first word on: one, or those of `bracketedVariables`. -/
def variableDeclaration (keyword : VarKeyword) (exported : Bool) : Parser Declaration := do
  let _ ← advance
  if ← take (.punct .lbrack) then
    bracketedVariables d g keyword exported
  else
    let name ← consume .symbol (.variableName keyword)
    let value ←
      if ← isPlainAssign then
        let _ ← advance
        pure (some (← assignment d g))
      else
        pure none
    endStatement d (.variableEnd keyword)
    return .var keyword name.text value exported

/-- The complaint about an `export` that no declaration follows. It is about the word itself
where something follows that can stand alone (`startsStatement`, `startsExpression`), and about
what follows where nothing can. -/
def exportComplaint (exportWord : Token) : Parser (Option Declaration) := do
  let k ← kind
  if startsStatement d k then
    complain exportWord .exportedStatement
  else if startsExpression d k then
    complain exportWord .exportedExpression
  else
    unexpected .exportedDeclaration

/-- A declaration whose leading words have been read, or nothing when the current token begins
none. Without such words it may be a `statement?`. -/
def declarationFrom (exportWord : Option Token) (isAsync : Bool) : Parser (Option Declaration) := do
  let k ← kind
  if k = .eof then
    match exportWord with
    | some _ => complain (← current) .endAfterExport
    | none => return none
  else if k = d.functionWord then
    return some (← functionDeclaration d g exportWord.isSome isAsync)
  else
    match varKeyword? k, exportWord with
    | some keyword, _ => return some (← variableDeclaration d g keyword exportWord.isSome)
    | none, some exportWord => exportComplaint d exportWord
    | none, none => return (← statement? d g).map .statement

/-- A declaration or a statement, or nothing when the current token begins none: the words
before it, and then `declarationFrom`. -/
def declaration? : Parser (Option Declaration) := do
  let exportWord ←
    if ← is (.keyword .exportKw) then
      pure (some (← advance))
    else
      pure none
  let isAsync ← take (.keyword .asyncKw)
  if isAsync && (← kind) != d.functionWord then
    unexpected (.tokenAfter d.functionWord "async")
  else
    declarationFrom d g exportWord isAsync

/-- The comments that wait (`takeComments`), as a declaration of their own if there are any. -/
def pendingComments : Parser Block := do
  let comments ← takeComments
  if comments.isEmpty then return [] else return [.comments comments]

/-- Declarations up to a token that begins none. Comments before each of them, and before that
token, are declarations among the others (`pendingComments`). -/
def declarations : Parser Block := do
  -- comments at the end of a block have no declaration after them
  let comments ← pendingComments
  match ← declaration? d g with
  | none => return comments
  | some declaration => return comments ++ declaration :: (← g.declarations)

end Diglot.Rules

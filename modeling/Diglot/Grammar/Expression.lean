import Diglot.Grammar.Basic

/-!
# Expressions

The rules for expressions, from names and literals up to assignments joined by commas. Operators are
read by climbing: `climb` reads operands joined by operators that bind at least as strongly as its
bound, and the operand after an operator is read with that operator's own strength as the bound, or
one more where it groups to the left.

- `Rules.primary`, `Rules.member`, `Rules.step`, `Rules.unary`: operands.
- `Rules.climb`, `Rules.assignment`, `Rules.expr`: operators.
-/

namespace Diglot.Rules

open Diglot.Parser

variable (d : Dialect) (g : Grammar)

/-! ## Parts shared with declarations -/

/-- Names separated by commas, perhaps none. A comma after the last name is passed over, since
`g.names` may read nothing. -/
def names : Parser (List String) := do
  if ← is .symbol then
    let name ← advance
    if ← take (.punct .comma) then
      return name.text :: (← g.names)
    else
      return [name.text]
  else
    return []

/-- A block between the dialect's `blockOpen` and `blockClose`. The `context` is for the message
about a block that does not begin. -/
def block (context : BlockContext) : Parser Block := do
  let _ ← consume d.blockOpen (.blockStart d.blockOpen context)
  let body ← g.declarations
  let _ ← consume d.blockClose (.declarationOr d.blockClose)
  return body

/-- The `names` of a function's parameters, in parentheses. -/
def signature : Parser (List String) := do
  let _ ← consume (.punct .lparen) .parameters
  let params ← g.names
  let _ ← consume (.punct .rparen) (.commaOr (.punct .rparen))
  return params

/-! ## Operands -/

/-- An arrow function (`isArrow`) binds less strongly than every operator, so it may not be an
operand without parentheses. The complaint is about the operator. -/
def operand (operator : Token) (e : Expr) : Parser Expr :=
  if e.isArrow then complain operator .arrowOperand else return e

/-- The name after a point. Keywords and truth values can name members too. -/
def memberName : Parser Expr := do
  let k ← kind
  if k == .symbol || k == .boolean || k.isKeyword then
    return .symbol (← advance).text
  else
    unexpected (.tokenAfter .symbol ".")

/-- The arguments of a call, in parentheses: `elements` as an `Expr.list`. -/
def arguments : Parser Expr := do
  let _ ← consume (.punct .lparen) (.token (.punct .lparen))
  let (elements, trailingComma) ← g.elements (.punct .rparen) false
  let _ ← consume (.punct .rparen) (.token (.punct .rparen))
  return .list elements trailingComma

/-- The names that make up an arrow function's parameters, which were read as `elements`. The
complaint about anything else is about the arrow. -/
def arrowParams (arrow : Token) : List Expr → Parser (List String)
  | [] => return []
  | .symbol name :: es => return name :: (← arrowParams arrow es)
  | _ :: _ => complain arrow (.expected .arrowNames)

/-- An arrow function, from its arrow on. A body that begins with `blockOpen` is a block. -/
def arrow (params : List Expr) : Parser Expr := do
  let token ← advance
  let params ← arrowParams token params
  if ← is d.blockOpen then
    return .arrowBlock params (← block d g .arrowBody)
  else
    return .arrow params (← g.assignment)

/-- Parentheses hold an expression, a list, or the parameters of an arrow function. Which of them is
known only after the closing one. -/
def parenthesized : Parser Expr := do
  let _ ← advance
  let (elements, trailingComma) ← g.elements (.punct .rparen) false
  let _ ← consume (.punct .rparen) (.token (.punct .rparen))
  if ← is (.punct .arrow) then
    -- only now are the elements known to be parameters
    arrow d g elements
  else
    match elements, trailingComma with
    | [], _ => unexpected (.tokenAfter (.punct .arrow) "()")
    | [inner], false => return .grouping inner
    | elements, trailingComma => return .list elements trailingComma

/-- An object, from its opening brace on. -/
def object : Parser Expr := do
  let _ ← advance
  let entries ← g.entries
  let _ ← consume (.punct .rbrace) (.token (.punct .rbrace))
  return .object entries

/-- An array, from its opening bracket on. A comma after the last element leaves no trace. -/
def array : Parser Expr := do
  let _ ← advance
  let (elements, _) ← g.elements (.punct .rbrack) false
  let _ ← consume (.punct .rbrack) (.token (.punct .rbrack))
  return .array elements

/-- A function within an expression, from its first word on (`functionWord`). -/
def functionLiteral : Parser Expr := do
  let _ ← advance
  let name ←
    if ← is .symbol then
      pure (some (← advance).text)
    else
      pure none
  let params ← signature g
  let body ← block d g .functionBody
  return .function name params body

/-- Goes past the token of a literal whose `value` is known. -/
def literal (value : Literal) : Parser Expr := do
  let _ ← advance
  return .literal value

/-- The largest integer that a `fixnum` may denote. -/
def maxFixnum : Nat := Nat.pow 2 63 - 1

/-- An integer literal, which may not exceed `maxFixnum`. -/
def fixnum (t : Token) : Parser Expr :=
  let value := Decimal.natOfDigits t.text.toList
  if value ≤ maxFixnum then literal (.fixnum value t.text) else complain t .integerRange

/-- A name, a literal, or what stands between brackets of some kind: what `memberFrom` goes on
from. -/
def primary : Parser Expr := do
  let t ← current
  match t.kind with
  | .punct .lparen => parenthesized d g
  | .punct .lbrace => object g
  | .punct .lbrack => array g
  | .symbol =>
    let _ ← advance
    return .symbol t.text
  | .boolean => literal (.boolean (t.text == "true") t.text)
  | .fixnum => fixnum t
  | .flonum => literal (.flonum (.ofLiteral t.text) t.text)
  | .string => literal (.string t.text t.text)
  | .regexp => literal (.regexp t.text t.text)
  | .badString => complain t .unterminatedString
  | .eof => complain t .unexpectedEnd
  | k => if k = d.functionWord then functionLiteral d g else unexpected .expression

/-- Further names of a path, each after a point. -/
def pathFrom (target : Expr) : Parser Expr := do
  if ← take (.punct .dot) then
    g.pathFrom (← build (Expr.binary? .dot target (← memberName)))
  else
    return target

/-- `new` and the path after it (`pathFrom`), perhaps with `arguments`; also whether there were
none. -/
def construction : Parser (Expr × Bool) := do
  let _ ← advance
  let name ← consume .symbol (.tokenAfter .symbol "new")
  let target ← pathFrom g (.symbol name.text)
  if ← is (.punct .lparen) then
    return (← build (Expr.binary? .new target (← arguments g)), false)
  else
    return (← build (Expr.unary? .new target), true)

/-- Calls, indices and members after a `value`, one after the other. -/
def memberFrom (value : Expr) : Parser Expr := do
  match ← kind with
  | .punct .lparen =>
    let value ← operand (← current) value
    g.memberFrom (← build (Expr.call? value (← arguments g)))
  | .punct .lbrack =>
    let value ← operand (← advance) value
    let position ← g.expr
    let _ ← consume (.punct .rbrack) (.token (.punct .rbrack))
    g.memberFrom (.index value position)
  | .punct .dot =>
    let value ← operand (← advance) value
    g.memberFrom (← build (Expr.binary? .dot value (← memberName)))
  | _ => return value

/-- A value with what follows it (`memberFrom`). Nothing may follow `new` without arguments. -/
def member : Parser Expr := do
  if ← is (.keyword .newKw) then
    let (value, bare) ← construction g
    if bare then return value else memberFrom g value
  else
    memberFrom g (← primary d g)

/-- A value (`member`) and perhaps an operator after it. -/
def step : Parser Expr := do
  let value ← member d g
  match stepOp? (← kind) with
  | some op => return .step op (← operand (← advance) value)
  | none => return value

/-- An operand with the operators before it (`unaryOp?`), down to a `step`. -/
def unary : Parser Expr := do
  match unaryOp? (← kind) with
  | some op =>
    let token ← advance
    let e ← operand token (← g.unary)
    build (Expr.unary? op e)
  | none => step d g

/-! ## Operators -/

/-- The least `precedence` that operators in the right operand of an operator must have. -/
def rightBound (op : BinaryOp) : Precedence :=
  if op.isRightAssociative then op.precedence else op.precedence + 1

/-- Whether an expression begins with an operator (`unary`) that may not stand before a power
sign. `new` may. -/
def isOpenUnary : Expr → Bool
  | .unary op _ => op != .new
  | _ => false

/-- The operators that bind at least as strongly as `bound`, and their right operands
(`rightBound`), after what is read as `left`. -/
def climbFrom (bound : Precedence) (left : Expr) : Parser Expr := do
  match infixOp? (← kind) with
  | none => return left
  | some op =>
    if op.precedence < bound then
      return left
    else
      let token ← advance
      let left ← operand token left
      -- a power sign after an operand with an operator before it could be grouped in two ways
      if op = .exp ∧ isOpenUnary left then
        complain token .unaryBeforePower
      else
        let right ← operand token (← g.climb (rightBound op))
        g.climbFrom bound (← build (Expr.binary? op left right))

/-- Operands (`unary`) joined by operators that bind at least as strongly as `bound`. -/
def climb (bound : Precedence) : Parser Expr := do
  climbFrom g bound (← unary d g)

/-- An assignment or a conditional expression, both of which group to the right, or anything that
binds more strongly. -/
def assignment : Parser Expr := do
  let left ← climb d g .or
  match ← kind with
  | .assign =>
    let token ← advance
    let op ← build (BinaryOp.parse? token.text)
    let left ← operand token left
    let right ← g.assignment
    build (Expr.binary? op left right)
  | .punct .question =>
    let token ← advance
    let test ← operand token left
    let yes ← g.assignment
    let _ ← consume (.punct .colon) (.tokenAfter (.punct .colon) "expr ? expr")
    -- both branches of a conditional expression are read like its right side
    let no ← g.assignment
    return .ternary test yes no
  | _ => return left

/-- Further assignments, each after a comma, joined to what is read as `left`. -/
def sequenceFrom (left : Expr) : Parser Expr := do
  if ← take (.punct .comma) then
    g.sequenceFrom (← build (Expr.binary? .comma left (← g.assignment)))
  else
    return left

/-- Assignments joined by commas (`sequenceFrom`). -/
def expr : Parser Expr := do
  sequenceFrom g (← assignment d g)

/-! ## Lists -/

/-- Expressions up to the token `close`, which is not gone past, and whether a comma came last.
With none to read that is what `afterComma` says. -/
def elements (close : TokenKind) (afterComma : Bool) : Parser (List Expr × Bool) := do
  let k ← kind
  if k = close ∨ k = .eof then
    return ([], afterComma)
  else
    let e ← assignment d g
    if ← take (.punct .comma) then
      let (es, trailingComma) ← g.elements close true
      return (e :: es, trailingComma)
    else
      return ([e], false)

/-- The key of an object entry, as the expression it would be elsewhere: `Entry.ofExpr?` takes
it. -/
def entryKey : Parser Expr := do
  let t ← current
  match t.kind with
  | .symbol =>
    let _ ← advance
    return .symbol t.text
  | .string => literal (.string t.text t.text)
  | _ => unexpected .objectKey

/-- An `entryKey`, and perhaps a value after a colon. -/
def entry : Parser Entry := do
  let key ← entryKey
  if ← take (.punct .colon) then
    build (Entry.ofExpr? key (some (← assignment d g)))
  else
    build (Entry.ofExpr? key none)

/-- Each `entry` of an object up to the closing brace, which is not gone past. -/
def entries : Parser (List Entry) := do
  let k ← kind
  if k = .punct .rbrace ∨ k = .eof then
    return []
  else
    let e ← entry d g
    if ← take (.punct .comma) then
      return e :: (← g.entries)
    else
      return [e]

end Diglot.Rules

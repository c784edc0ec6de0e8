import Diglot.Token
import Diglot.Tree.Operator

/-!
# Complaints about source text

What can be wrong with the text of a program, and how it is said. A complaint is made about one
token: the message of an unmet expectation ends by naming the very token that stood there.

- `Expectation`: what the grammar asked for.
- `Complaint`: what is wrong.
- `SyntaxError`: a complaint about a token, with its `message` and its `render` form, which gives
  the place as well.
-/

namespace Diglot

/-- The construct whose body a block begins, for the message about a missing block
(`Expectation.blockStart`). -/
inductive BlockContext where
  | functionBody | arrowBody | statement
  | ifHeader | elseBranch
  | whileHeader | whileTest
  | forHeader | forCollection
  deriving DecidableEq, Repr

/-- The words that place a block within its construct. -/
def BlockContext.phrase : BlockContext → String
  | functionBody => "at start of function body"
  | arrowBody => "at start of arrow function body"
  | statement => "to begin block"
  | ifHeader => "after `if (EXPRESSION)`"
  | elseBranch => "or `if` after `else`"
  | whileHeader => "after `while (EXPRESSION)`"
  | whileTest => "after `while EXPRESSION`"
  | forHeader => "after `for (...)`"
  | forCollection => "after `for ... of EXPRESSION`"

/-- What the grammar asked for at a token; `wording` puts it in words. -/
inductive Expectation where
  /-- A token of a kind. -/
  | token (kind : TokenKind)
  /-- A token of a kind, after what has been read of a construct. -/
  | tokenAfter (kind : TokenKind) (context : String)
  /-- Another name, or the end of a list of names. -/
  | commaOr (close : TokenKind)
  /-- Another declaration, or the end of a list of them. -/
  | declarationOr (close : TokenKind)
  /-- Another declaration of a conditional's branch, or one of the words that end it. -/
  | branchEnd
  /-- The start of a block. -/
  | blockStart (opening : TokenKind) (context : BlockContext)
  /-- The path of an import. -/
  | modulePath
  /-- The name of a declared function. -/
  | functionName
  /-- The start of a list of parameters. -/
  | parameters
  /-- A declaration to be exported. -/
  | exportedDeclaration
  /-- The name of a declared variable. -/
  | variableName (keyword : VarKeyword)
  /-- A variable's value, or the end of its declaration. -/
  | variableEnd (keyword : VarKeyword)
  /-- The value of several variables. -/
  | bracketedValue
  /-- Any expression. -/
  | expression
  /-- Names alone before the arrow of a function. -/
  | arrowNames
  /-- The key of an object entry. -/
  | objectKey
  /-- Nothing more after a lone expression. -/
  | endOfExpression
  /-- An expectation put in words by the caller. -/
  | phrase (words : String)
  deriving DecidableEq, Repr

namespace Expectation

/-- A kind within a message: its `spelling?` between backquotes, or its plain `name`. -/
def mention (k : TokenKind) : String :=
  match k.spelling? with
  | some s => "`" ++ s ++ "`"
  | none => k.name

/-- An expectation in words. Kinds are named by `mention`. -/
def wording : Expectation → String
  | token k => "expected " ++ mention k
  | tokenAfter k context => "expected " ++ mention k ++ " after `" ++ context ++ "`"
  | commaOr close => "expected `,` or " ++ mention close
  | declarationOr close => "expected DECLARATION or " ++ mention close
  | branchEnd => "expected DECLARATION, `elsif`, `else` or `end`"
  | blockStart opening context => "expected " ++ mention opening ++ " " ++ context.phrase
  | modulePath => "expected STRING after `from` (representing module path)"
  | functionName => "expected SYMBOL (to define the function name)"
  | parameters => "expected `(` to begin function parameter list"
  | exportedDeclaration => "expected DECLARATION after `export`"
  | variableName keyword => "expected SYMBOL after '" ++ keyword.spelling ++ "'"
  | variableEnd keyword => "expected '=' or ';' after '" ++ keyword.spelling ++ "'"
  | bracketedValue => "expected '=' after 'let [...]'"
  | expression => "expected EXPRESSION"
  | arrowNames => "expected identifier list before '=>'"
  | objectKey => "expected SYMBOL or STRING (as object key)"
  | endOfExpression => "expected end of expression"
  | phrase words => words

end Expectation

/-- What is wrong at a token; `Complaint.wording` puts it in words. -/
inductive Complaint where
  /-- The grammar asked for something else. -/
  | expected (what : Expectation)
  /-- The text ends where an expression should begin. -/
  | unexpectedEnd
  /-- The text ends after `export`. -/
  | endAfterExport
  /-- A statement cannot be exported. -/
  | exportedStatement
  /-- An expression cannot be exported. -/
  | exportedExpression
  /-- The token is an operator, and one of its operands is an arrow function without
  parentheses. -/
  | arrowOperand
  /-- The token is a power sign, and its left operand begins with an operator. -/
  | unaryBeforePower
  /-- The token is an integer that does not fit into 64 bits. -/
  | integerRange
  /-- The token is a string without its closing quote. -/
  | unterminatedString
  /-- A complaint put in words by the caller. -/
  | remark (words : String)
  deriving DecidableEq, Repr

/-- A complaint about the token `t` in words. An unmet expectation ends in the token's
`describe`. -/
def Complaint.wording (t : Token) : Complaint → String
  | expected what => what.wording ++ " but found " ++ t.describe
  | unexpectedEnd => "unexpected end-of-input"
  | endAfterExport => "unexpected end-of-input after 'export'"
  | exportedStatement => "statements cannot be exported"
  | exportedExpression => "expression statements cannot be exported"
  | arrowOperand =>
    "arrow function must be parenthesized to be used as an operand of `" ++ t.text ++ "`"
  | unaryBeforePower => "unary operator before `**` must be parenthesized"
  | integerRange => "integer literal out of range"
  | unterminatedString => "unterminated string literal"
  | remark words => words

/-- Malformed source text: the `token` where the fault was noticed, and what is wrong there. -/
structure SyntaxError where
  token : Token
  complaint : Complaint
  deriving DecidableEq, Repr

namespace SyntaxError

/-- What is wrong, in words (`Complaint.wording`). -/
def message (e : SyntaxError) : String :=
  e.complaint.wording e.token

/-- The place (`Loc.render`) and the `message`. -/
def render (e : SyntaxError) : String :=
  e.token.loc.render ++ ": " ++ e.message

end SyntaxError

end Diglot

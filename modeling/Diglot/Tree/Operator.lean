/-!
# Operators

The operators of the language with their spelling and how strongly they bind.

- `Precedence`: binding strengths, from the comma's to an atom's.
- `BinaryOp`, `UnaryOp`, `StepOp`: operators between two operands, before one, and after one.
- `VarKeyword`: the words that declare a variable.
-/

namespace Diglot

/-- Binding strength: an operand that binds less strongly than its place asks for has to stand in
parentheses. -/
abbrev Precedence := Nat

namespace Precedence

def comma : Precedence := 1
def assignment : Precedence := 2
def ternary : Precedence := 2
def or : Precedence := 3
def and : Precedence := 4
def equality : Precedence := 8
def relational : Precedence := 9
def additive : Precedence := 11
def multiplicative : Precedence := 12
def exponent : Precedence := 13
/-- Operators before their operand. -/
def unary : Precedence := 14
/-- Operators after their operand. -/
def step : Precedence := 15
/-- `new` without arguments. -/
def bareNew : Precedence := 16
/-- Member access, indexing, calls, and `new` with arguments. -/
def member : Precedence := 17
def atom : Precedence := 18

end Precedence

/-- An operator between two operands. Member access (`dot`) and `new` with arguments count as
such. -/
inductive BinaryOp where
  | comma
  | assign | addAssign | subAssign | mulAssign | divAssign | modAssign
  | or | and
  | eq | strictEq | notEq | strictNotEq
  | lt | gt | ltEq | gtEq | isIn
  | add | sub
  | mul | div | mod
  | exp
  | dot | new
  deriving DecidableEq, Repr

namespace BinaryOp

/-- All operators between two operands, for `ofSpelling?` to search. -/
def all : List BinaryOp :=
  [ comma, assign, addAssign, subAssign, mulAssign, divAssign, modAssign, or, and, eq, strictEq
  , notEq, strictNotEq, lt, gt, ltEq, gtEq, isIn, add, sub, mul, div, mod, exp, dot, new ]

/-- How an operator is written. -/
def spelling : BinaryOp → String
  | comma => ","
  | assign => "="
  | addAssign => "+="
  | subAssign => "-="
  | mulAssign => "*="
  | divAssign => "/="
  | modAssign => "%="
  | or => "||"
  | and => "&&"
  | eq => "=="
  | strictEq => "==="
  | notEq => "!="
  | strictNotEq => "!=="
  | lt => "<"
  | gt => ">"
  | ltEq => "<="
  | gtEq => ">="
  | isIn => "in"
  | add => "+"
  | sub => "-"
  | mul => "*"
  | div => "/"
  | mod => "%"
  | exp => "**"
  | dot => "."
  | new => "new"

/-- The operator with a `spelling`, among `all`. -/
def ofSpelling? (s : String) : Option BinaryOp :=
  all.find? fun op => op.spelling == s

/-- How strongly an operator binds. -/
def precedence : BinaryOp → Precedence
  | comma => .comma
  | assign | addAssign | subAssign | mulAssign | divAssign | modAssign => .assignment
  | or => .or
  | and => .and
  | eq | strictEq | notEq | strictNotEq => .equality
  | lt | gt | ltEq | gtEq | isIn => .relational
  | add | sub => .additive
  | mul | div | mod => .multiplicative
  | exp => .exponent
  | dot | new => .member

/-- Assignments and powers (`exp`) group to the right, all else to the left. -/
def isRightAssociative : BinaryOp → Bool
  | assign | addAssign | subAssign | mulAssign | divAssign | modAssign | exp => true
  | _ => false

/-- `ofSpelling?` finds an operator again by its `spelling`. -/
theorem ofSpelling?_spelling (op : BinaryOp) : ofSpelling? op.spelling = some op := by
  cases op <;> decide

end BinaryOp

/-- An operator before its operand. -/
inductive UnaryOp where
  | neg | plus | not
  | increment | decrement
  | typeof | await
  /-- `new` without arguments. -/
  | new
  deriving DecidableEq, Repr

namespace UnaryOp

/-- All operators before an operand, for `ofSpelling?` to search. -/
def all : List UnaryOp :=
  [neg, plus, not, increment, decrement, typeof, await, new]

/-- How an operator is written. -/
def spelling : UnaryOp → String
  | neg => "-"
  | plus => "+"
  | not => "!"
  | increment => "++"
  | decrement => "--"
  | typeof => "typeof"
  | await => "await"
  | new => "new"

/-- The operator with a `spelling`, among `all`. -/
def ofSpelling? (s : String) : Option UnaryOp :=
  all.find? fun op => op.spelling == s

/-- How strongly an operator binds. `new` binds more strongly than the others. -/
def precedence : UnaryOp → Precedence
  | new => .bareNew
  | _ => .unary

/-- Operators that are words need a blank before their operand. -/
def isWord : UnaryOp → Bool
  | typeof | await | new => true
  | _ => false

end UnaryOp

/-- An operator after its operand. -/
inductive StepOp where
  | increment | decrement
  deriving DecidableEq, Repr

namespace StepOp

/-- How an operator is written: like the `UnaryOp` of the same name. -/
def spelling : StepOp → String
  | increment => "++"
  | decrement => "--"

end StepOp

/-- A word that declares a variable. -/
inductive VarKeyword where
  | letKw | varKw | constKw
  deriving DecidableEq, Repr

namespace VarKeyword

/-- The word itself. -/
def spelling : VarKeyword → String
  | letKw => "let"
  | varKw => "var"
  | constKw => "const"

end VarKeyword

end Diglot

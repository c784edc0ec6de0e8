import Diglot.Error

/-!
# Checked construction

Constructors for the nodes whose parts have to be of a certain form. They refuse a tree that could
not be printed; the other nodes can be put together freely.

- `Expr.binary?`, `Expr.unary?`, `Expr.call?`: checked nodes.
- `Entry.ofExpr?`: an object entry from an expression for its key.
- `BinaryOp.parse?`: an operator from its spelling.
-/

namespace Diglot

namespace Expr

/-- A `binary` node. `new` needs a name path (`isSymbolPath`) and a list of arguments, and a
point needs a name after it. -/
def binary? (op : BinaryOp) (left right : Expr) : Except Defect Expr :=
  match op with
  | .new =>
    if !left.isSymbolPath then .error .newTarget
    else if !right.isList then .error .newArguments
    else .ok (.binary .new left right)
  | .dot => if right.isSymbol then .ok (.binary .dot left right) else .error .memberName
  | op => .ok (.binary op left right)

/-- A `unary` node. `new` needs a name path (`isSymbolPath`). -/
def unary? (op : UnaryOp) (operand : Expr) : Except Defect Expr :=
  if op = .new ∧ !operand.isSymbolPath then .error .newTarget else .ok (.unary op operand)

/-- A `call`. Its arguments have to be a list (`isList`). -/
def call? (callee arguments : Expr) : Except Defect Expr :=
  if arguments.isList then .ok (.call callee arguments) else .error .callArguments

end Expr

/-- The `Key` that an expression can be: a name or a string. -/
def Key.ofExpr? : Expr → Option Key
  | .symbol name => some (.symbol name)
  | .literal (.string value text) => some (.string value text)
  | _ => none

/-- An object entry whose key is given as an expression (`Key.ofExpr?`). -/
def Entry.ofExpr? (key : Expr) (value : Option Expr) : Except Defect Entry :=
  match Key.ofExpr? key, value with
  | some k, none => .ok (.shorthand k)
  | some k, some v => .ok (.pair k v)
  | none, _ => .error (.objectKey key)

/-- The operator with a spelling (`ofSpelling?`), or else a defect. -/
def BinaryOp.parse? (spelling : String) : Except Defect BinaryOp :=
  match ofSpelling? spelling with
  | some op => .ok op
  | none => .error (.unknownOperator spelling)

end Diglot

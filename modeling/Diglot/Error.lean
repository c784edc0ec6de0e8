import Diglot.Complaint
import Diglot.Tree.Inspect

/-!
# Errors

Everything that can stop a program from being read or printed.

- `Defect`: a tree that breaks the rules of trees. Reading source text never builds one.
- `Error`: a syntax error, a defect, or a sink that takes no more text; `Error.render` is its
  message.
-/

namespace Diglot

/-- A rule of trees that is broken, found when a tree is built or when it is printed. -/
inductive Defect where
  /-- What follows `new` is not a name path. -/
  | newTarget
  /-- The arguments of `new` are not a list. -/
  | newArguments
  /-- What follows a point is not a name. -/
  | memberName
  /-- The arguments of a call are not a list. -/
  | callArguments
  /-- What follows `else` is neither a conditional nor a block. -/
  | elseBranch
  /-- The key of an object entry is neither a name nor a string. -/
  | objectKey (key : Expr)
  /-- No operator between two operands has the spelling. -/
  | unknownOperator (spelling : String)
  /-- The grammar was entered more deeply than the text has tokens. -/
  | depth
  /-- A defect put in words by the caller. -/
  | remark (words : String)

namespace Defect

/-- A defect in words. -/
def message : Defect → String
  | newTarget => "`new` target must be a name path"
  | newArguments => "`new` arguments must be a List"
  | memberName => "right side of `.` must be a Symbol"
  | callArguments => "call arguments must be a List"
  | elseBranch => "else branch must be an If or a Block"
  | objectKey key => "object key must be a Symbol or String, not " ++ key.inspect
  | unknownOperator spelling => "unknown binary operator `" ++ spelling ++ "`"
  | depth => "grammar entered more deeply than the text has tokens"
  | remark words => words

end Defect

/-- What can stop a program from being read or printed; `Error.render` is its message. -/
inductive Error where
  /-- The text is malformed. -/
  | source (e : SyntaxError)
  /-- A tree is malformed. -/
  | tree (e : Defect)
  /-- The sink takes no more text. -/
  | sink

/-- The message of an error: that of the `SyntaxError` or of the `Defect`, or a text of its own. -/
def Error.render : Error → String
  | source e => e.render
  | tree e => "internal error: " ++ e.message
  | sink => "failed to write to sink"

end Diglot

import Diglot.Dialect

/-!
# Surfaces

How a dialect spells the delimiters of the constructs that both dialects share. Printing walks the
same tree for both and asks the surface for the words.
-/

namespace Diglot

/-- The spellings of a `Dialect`, which `Program.doc` and the documents within it ask for. -/
structure Surface where
  dialect : Dialect
  /-- The word that begins a function. -/
  functionWord : String
  blockOpen : String
  blockClose : String
  /-- What stands before the header of a conditional or a loop. -/
  headerOpen : String
  /-- What stands after the header of a conditional or a loop. -/
  headerClose : String
  /-- The word after a conditional's test, where the branches of a conditional share one end
  instead of being blocks of their own. -/
  thenWord : Option String
  /-- What stands before the name of the module. -/
  moduleLead : String
  /-- Whether an opening brace at the start of a statement, or of the body of an arrow function,
  begins a block rather than an object. -/
  braceOpensBlock : Bool

/-- The surface of a dialect. The brace dialect has no module line, so it says it in a comment. -/
def Dialect.surface : Dialect → Surface
  | .brace =>
    { dialect := .brace
      functionWord := "function"
      blockOpen := "\x7b"
      blockClose := "\x7d"
      headerOpen := "("
      headerClose := ")"
      thenWord := none
      moduleLead := "// module "
      braceOpensBlock := true }
  | .block =>
    { dialect := .block
      functionWord := "fn"
      blockOpen := "do"
      blockClose := "end"
      headerOpen := ""
      headerClose := ""
      thenWord := some "then"
      moduleLead := "module "
      braceOpensBlock := false }

/-- The surface spells the tokens that the grammar of the dialect looks for (`functionWord`,
`blockOpen`, `blockClose`). -/
theorem Dialect.surface_spelling (d : Dialect) :
    d.functionWord.spelling? = some d.surface.functionWord ∧
      d.blockOpen.spelling? = some d.surface.blockOpen ∧
      d.blockClose.spelling? = some d.surface.blockClose := by
  cases d <;> exact ⟨rfl, rfl, rfl⟩

end Diglot

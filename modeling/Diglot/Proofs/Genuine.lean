import Diglot.Lexer
import Diglot.Tree.Operator

/-!
# Genuine tokens

The texts that tokens of each kind can have. The lexer only ever yields tokens of this form, and a
text of this form is read as one token of its kind wherever what follows cannot prolong it.

- `IsWord`, `IsName`: the words, and those of them that a dialect leaves free for names.
- `Dialect.wordKind`: what kind of token a word is.
- `Genuine`: the texts of a kind.
-/

namespace Diglot

open Lexeme

/-- Letters, digits and underscores, not beginning with a digit: what `isWordStart` and
`isWordChar` take. -/
def IsWord (text : String) : Prop :=
  (∃ c cs, text.toList = c :: cs ∧ isWordStart c = true) ∧ ∀ c ∈ text.toList, isWordChar c = true

/-- A word that is neither a truth value nor a `keyword?` of the dialect. -/
structure IsName (d : Dialect) (text : String) : Prop where
  word : IsWord text
  notTrue : text ≠ "true"
  notFalse : text ≠ "false"
  free : d.keyword? text = none

/-- `IsWord` is decided by a look at every character. -/
theorem isWord_iff {text : String} :
    IsWord text ↔
      (text.toList.head?.any isWordStart && text.toList.all isWordChar) = true := by
  rw [IsWord, Bool.and_eq_true, List.all_eq_true]
  cases text.toList <;> simp

instance (text : String) : Decidable (IsWord text) :=
  decidable_of_iff _ isWord_iff.symm

/-- `IsName` is decided by its four fields. -/
theorem isName_iff {d : Dialect} {text : String} :
    IsName d text ↔
      IsWord text ∧ text ≠ "true" ∧ text ≠ "false" ∧ d.keyword? text = none :=
  ⟨fun ⟨hword, htrue, hfalse, hfree⟩ => ⟨hword, htrue, hfalse, hfree⟩,
    fun ⟨hword, htrue, hfalse, hfree⟩ => ⟨hword, htrue, hfalse, hfree⟩⟩

instance (d : Dialect) (text : String) : Decidable (IsName d text) :=
  decidable_of_iff _ isName_iff.symm

/-- The kind of token that a word is in a dialect: a truth value, a keyword, or else
`TokenKind.symbol`. -/
def Dialect.wordKind (d : Dialect) (text : String) : TokenKind :=
  if text = "true" ∨ text = "false" then .boolean
  else
    match d.keyword? text with
    | some k => .keyword k
    | none => .symbol

/-- The spelling of a `BinaryOp` that assigns, plain or compound. -/
def IsAssignment (text : String) : Prop :=
  ∃ op : BinaryOp, op.precedence = .assignment ∧ op.spelling = text

/-- The texts that tokens of a kind have in a dialect. A string, a regular expression, a comment
between marks and the trailer are recognised by their own scans in `Lexeme`, which have to take
all of the text. -/
def Genuine (d : Dialect) (text : String) : TokenKind → Prop
  | .symbol => IsName d text
  | .keyword k => k ∈ d.keywords ∧ text = k.spelling
  | .boolean => text = "true" ∨ text = "false"
  | .fixnum => text ≠ "" ∧ ∀ c ∈ text.toList, c.isDigit = true
  | .flonum => text ≠ "" ∧ flonum text.toList = text.length
  | .string => text ≠ "" ∧ string text.toList = text.length
  | .regexp =>
    text ≠ "" ∧ regexp text.toList = text.length ∧ startsWith "//" text.toList = false
  | .assign => IsAssignment text
  | .punct p => text = p.spelling
  | .lineComment => startsWith "//" text.toList = true ∧ ∀ c ∈ text.toList, isBreak c = false
  | .blockComment => text ≠ "" ∧ blockComment text.toList = text.length
  | .outputComment => text ≠ "" ∧ outputComment text.toList = text.length
  | .eof => text = ""
  | _ => True

end Diglot

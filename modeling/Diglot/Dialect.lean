import Diglot.Token

/-!
# Dialects

The two written forms of the language. They share the grammar of the tree; a dialect decides which
words are reserved, how blocks are delimited and which file extension marks a source.

- `Dialect`: the two of them.
- `Dialect.keywords`, `Dialect.keyword?`: the reserved words.
- `Dialect.functionWord`, `Dialect.blockOpen`, `Dialect.blockClose`: the tokens that differ.
- `Dialect.extension`, `Dialect.ofExtension?`: file extensions.
-/

namespace Diglot

/-- A written form of the language. What the two forms have in common is the tree. -/
inductive Dialect where
  /-- Blocks stand between braces and headers between parentheses. -/
  | brace
  /-- Blocks run from a word to `end`, and headers stand bare. -/
  | block
  deriving DecidableEq, Repr

namespace Dialect

/-- The name of a dialect. -/
def name : Dialect → String
  | brace => "brace"
  | block => "block"

/-- The words reserved in both dialects; each has `ownKeywords` besides. -/
def sharedKeywords : List Keyword :=
  [ .asKw, .asyncKw, .awaitKw, .constKw, .elseKw, .exportKw, .forKw, .fromKw, .ifKw, .importKw
  , .inKw, .letKw, .moduleKw, .newKw, .ofKw, .returnKw, .throwKw, .typeofKw, .varKw, .whileKw ]

/-- The words reserved in one dialect only. -/
def ownKeywords : Dialect → List Keyword
  | brace => [.functionKw]
  | block => [.doKw, .endKw, .elsifKw, .fnKw, .thenKw]

/-- All reserved words of a dialect: `sharedKeywords` and `ownKeywords`. -/
def keywords (d : Dialect) : List Keyword :=
  sharedKeywords ++ d.ownKeywords

/-- The one of the `keywords` that a word is in a dialect, if it is reserved there. -/
def keyword? (d : Dialect) (word : String) : Option Keyword :=
  d.keywords.find? fun k => k.spelling == word

/-- Whether blocks are delimited by words (`blockOpen`, `blockClose`). -/
def isBlock : Dialect → Bool
  | brace => false
  | block => true

/-- The token that begins a function: a word that only this dialect reserves (`ownKeywords`). -/
def functionWord : Dialect → TokenKind
  | brace => .keyword .functionKw
  | block => .keyword .fnKw

/-- The token that begins a block. -/
def blockOpen : Dialect → TokenKind
  | brace => .punct .lbrace
  | block => .keyword .doKw

/-- The token that ends a block. -/
def blockClose : Dialect → TokenKind
  | brace => .punct .rbrace
  | block => .keyword .endKw

/-- The extension of files written in the dialect, without the dot. -/
def extension : Dialect → String
  | brace => "mjs"
  | block => "sp1"

/-- The dialect of source files with an extension. Besides the `extension` itself, two more
stand for `brace`. -/
def ofExtension? : String → Option Dialect
  | "js" | "mjs" | "sjs" => some brace
  | "sp1" => some block
  | _ => none

/-- `ofExtension?` recognises the `extension` of each dialect. -/
theorem ofExtension?_extension (d : Dialect) : ofExtension? d.extension = some d := by
  cases d <;> decide

end Dialect

end Diglot

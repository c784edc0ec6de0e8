import Diglot.Text.Position
import Diglot.Text.Quoted

/-!
# Tokens

A token is a piece of source text with the class it belongs to and the place where it begins. Both
dialects share one set of token kinds; which words count as keywords is the dialect's decision.

- `Punct`, `Keyword`: the kinds whose text is fixed.
- `TokenKind`: all kinds, with their `name` and, where there is one, their `spelling`.
- `Loc`: a place in a file, by line, column and byte offset.
- `Token`: kind, text and place; `Token.describe` is how a diagnostic names it and `Token.render`
  how a listing shows it.
-/

namespace Diglot

/-- Punctuation with one fixed spelling. The assignment operators are not among it: they share the
one kind `TokenKind.assign`. -/
inductive Punct where
  | lparen | rparen | lbrace | rbrace | lbrack | rbrack
  | arrow | identical | notIdentical | eqEq | notEq | lessEq | greaterEq | less | greater
  | semicolon | comma | colon | dot
  | orOr | andAnd | plusPlus | minusMinus | starStar
  | plus | minus | not | star | slash | percent | question
  deriving DecidableEq, Repr

/-- The words that some dialect reserves; `Dialect.keywords` says which. -/
inductive Keyword where
  | asKw | asyncKw | awaitKw | constKw | elseKw | exportKw | forKw | fromKw | ifKw | importKw
  | inKw | letKw | moduleKw | newKw | ofKw | returnKw | throwKw | typeofKw | varKw | whileKw
  | functionKw
  | doKw | endKw | elsifKw | fnKw | thenKw
  deriving DecidableEq, Repr

/-- The class of a token. `Lexeme.rules` says what text belongs to which. -/
inductive TokenKind where
  /-- A line break, alone or after a carriage return. -/
  | newline
  /-- A run of blanks within a line. -/
  | whitespace
  /-- A comment up to the end of its line. -/
  | lineComment
  /-- A comment between its two marks. -/
  | blockComment
  /-- The expected-output trailer that ends a file. -/
  | outputComment
  | regexp
  | string
  /-- A string without its closing quote. -/
  | badString
  | boolean
  | flonum
  | fixnum
  | symbol
  /-- The plain assignment sign and the compound ones. -/
  | assign
  | punct (p : Punct)
  | keyword (k : Keyword)
  /-- A character that begins nothing else. -/
  | unknown
  | eof
  deriving DecidableEq, Repr

namespace Punct

/-- The text of a punctuation token. -/
def spelling : Punct → String
  | lparen => "("
  | rparen => ")"
  | lbrace => "\x7b"
  | rbrace => "\x7d"
  | lbrack => "["
  | rbrack => "]"
  | arrow => "=>"
  | identical => "==="
  | notIdentical => "!=="
  | eqEq => "=="
  | notEq => "!="
  | lessEq => "<="
  | greaterEq => ">="
  | less => "<"
  | greater => ">"
  | semicolon => ";"
  | comma => ","
  | colon => ":"
  | dot => "."
  | orOr => "||"
  | andAnd => "&&"
  | plusPlus => "++"
  | minusMinus => "--"
  | starStar => "**"
  | plus => "+"
  | minus => "-"
  | not => "!"
  | star => "*"
  | slash => "/"
  | percent => "%"
  | question => "?"

/-- The name of a punctuation token in diagnostics and listings (`TokenKind.name`). -/
def name : Punct → String
  | lparen => "LPAREN"
  | rparen => "RPAREN"
  | lbrace => "LBRACE"
  | rbrace => "RBRACE"
  | lbrack => "LBRACK"
  | rbrack => "RBRACK"
  | arrow => "ARROW"
  | identical => "IDENTICAL"
  | notIdentical => "NOTIDENTICAL"
  | eqEq => "EQ"
  | notEq => "NEQ"
  | lessEq => "LEQ"
  | greaterEq => "GEQ"
  | less => "LT"
  | greater => "GT"
  | semicolon => "SEMICOLON"
  | comma => "COMMA"
  | colon => "COLON"
  | dot => "DOT"
  | orOr => "OR"
  | andAnd => "AND"
  | plusPlus => "INC"
  | minusMinus => "DEC"
  | starStar => "EXP"
  | plus => "PLUS"
  | minus => "MINUS"
  | not => "NOT"
  | star => "STAR"
  | slash => "SLASH"
  | percent => "PERCENT"
  | question => "QUESTION"

end Punct

namespace Keyword

/-- The word itself. -/
def spelling : Keyword → String
  | asKw => "as"
  | asyncKw => "async"
  | awaitKw => "await"
  | constKw => "const"
  | elseKw => "else"
  | exportKw => "export"
  | forKw => "for"
  | fromKw => "from"
  | ifKw => "if"
  | importKw => "import"
  | inKw => "in"
  | letKw => "let"
  | moduleKw => "module"
  | newKw => "new"
  | ofKw => "of"
  | returnKw => "return"
  | throwKw => "throw"
  | typeofKw => "typeof"
  | varKw => "var"
  | whileKw => "while"
  | functionKw => "function"
  | doKw => "do"
  | endKw => "end"
  | elsifKw => "elsif"
  | fnKw => "fn"
  | thenKw => "then"

end Keyword

namespace TokenKind

/-- The name of a kind in diagnostics and listings: `Punct.name` for punctuation, and for a
keyword its own `spelling`. -/
def name : TokenKind → String
  | newline => "NEWLINE"
  | whitespace => "WHITESPACE"
  | lineComment => "EOL_COMMENT"
  | blockComment => "BLOCK_COMMENT"
  | outputComment => "OUTPUT_COMMENT"
  | regexp => "REGEXP"
  | string => "STRING"
  | badString => "BADSTRING"
  | boolean => "BOOLEAN"
  | flonum => "FLONUM"
  | fixnum => "FIXNUM"
  | symbol => "SYMBOL"
  | assign => "ASSIGN"
  | punct p => p.name
  | keyword k => k.spelling
  | unknown => "UNKNOWN"
  | eof => "EOF"

/-- The text that every token of the kind has, for kinds that are `punct` or `keyword`. -/
def spelling? : TokenKind → Option String
  | punct p => some p.spelling
  | keyword k => some k.spelling
  | _ => none

/-- A kind as a reader would write it: its `spelling?`, or else its `name`. -/
def label (k : TokenKind) : String :=
  k.spelling?.getD k.name

/-- Whether the kind is some keyword. -/
def isKeyword : TokenKind → Bool
  | keyword _ => true
  | _ => false

/-- Whether the kind is made of blanks and line breaks. -/
def isWhitespace : TokenKind → Bool
  | whitespace | newline => true
  | _ => false

/-- Whether the kind is a comment. The expected-output trailer (`outputComment`) is not: it is
part of the program. -/
def isComment : TokenKind → Bool
  | lineComment | blockComment => true
  | _ => false

/-- Whether a token of the kind may hold line breaks. -/
def spansLines : TokenKind → Bool
  | newline | blockComment | string | outputComment => true
  | _ => false

/-- Whether a token of the kind counts for the grammar: it is neither blank (`isWhitespace`),
nor a comment (`isComment`), nor the trailer. -/
def isSignificant (k : TokenKind) : Bool :=
  !k.isWhitespace && !k.isComment && k != outputComment

end TokenKind

/-- A place in a file. A `Position` counts lines and columns from one, columns in characters;
the `offset` counts bytes from zero. -/
structure Loc extends Position where
  file : String
  offset : Nat
  deriving DecidableEq, Repr

namespace Loc

/-- The first place of a file: `Position.start`, and no byte before it. -/
def startOf (file : String) : Loc :=
  { toPosition := .start, file, offset := 0 }

/-- Line and column, as messages give them. -/
def render (l : Loc) : String :=
  toString l.line ++ ":" ++ toString l.column

end Loc

/-- A piece of source text with its `TokenKind` and the `Loc` where it begins. -/
structure Token where
  kind : TokenKind
  text : String
  loc : Loc
  deriving DecidableEq, Repr

namespace Token

/-- Whether the token marks the end of the text: its kind is `eof`. -/
def isEof (t : Token) : Bool :=
  t.kind == .eof

/-- How a diagnostic names the token: by the kind's `name` alone where that already tells the
text, and with the text otherwise. -/
def describe (t : Token) : String :=
  if t.text.isEmpty || t.text == t.kind.name then t.kind.name
  else t.kind.name ++ " (`" ++ t.text ++ "`)"

/-- How a listing shows the token: place, kind and quoted text (`Text.quote`). -/
def render (t : Token) : String :=
  t.loc.render ++ " " ++ t.kind.name ++ " " ++ Text.quote t.text

end Token

end Diglot

import Diglot.Proofs.Tape

/-!
# Derivations

The grammar of the language as a relation between tapes and trees: `Reads d φ S a S'` says that a
phrase `φ` stands at the front of the tape `S`, that it means `a`, and that `S'` is left after it.
There is one rule for each way a phrase can be made up, and each says in full what it asks of the
tokens, those that it only looks at included. Nothing is said about how deep a grammar goes or what
is complained about when a phrase is not there.

- `Phrase`: the phrases, some of which go on from a tree that has been read already.
- `Reads`: the derivations.
- `ReadsProgram`: the derivations of whole files.
-/

namespace Diglot

open Rules

/-! ## Optional tokens -/

/-- A tape begins with a token of a kind, which is gone past as in `Passes`, or it does not. -/
inductive Flag (k : TokenKind) : Tape → Bool → Tape → Prop
  | yes {S S' : Tape} (h : Passes S k S') : Flag k S true S'
  | no {S : Tape} (h : S.kind ≠ k) : Flag k S false S

/-- A tape begins with a token of a kind if there has to be one. The condition is given, where
`Flag` finds it out. -/
inductive PassesIf (k : TokenKind) : Bool → Tape → Tape → Prop
  | yes {S S' : Tape} (h : Passes S k S') : PassesIf k true S S'
  | no {S : Tape} : PassesIf k false S S

/-- A tape begins with a token that stands for something, or it does not. -/
inductive Perhaps {α : Type} (means : TokenKind → Option α) : Tape → Option α → Tape → Prop
  | some {S S' : Tape} {k : TokenKind} {a : α} (h : Passes S k S') (ha : means k = some a) :
      Perhaps means S (some a) S'
  | none {S : Tape} (h : means S.kind = none) : Perhaps means S none S

/-- The kinds of tokens that name a member after a point. -/
def TokenKind.namesMember (k : TokenKind) : Bool :=
  k == .symbol || k == .boolean || k.isKeyword

theorem TokenKind.ne_eof_of_namesMember {k : TokenKind} (h : k.namesMember = true) : k ≠ .eof := by
  rintro rfl
  exact absurd h (by decide)

/-- The kinds of tokens that go on a value. -/
def TokenKind.extendsValue : TokenKind → Bool
  | .punct .lparen | .punct .lbrack | .punct .dot => true
  | _ => false

/-- The `Key` that a token is, if it is one. -/
def Key.ofToken? (text : String) : TokenKind → Option Key
  | .symbol => some (.symbol text)
  | .string => some (.string text text)
  | _ => none

/-- Whether a token begins a `Declaration` or a statement. -/
def startsDeclaration (d : Dialect) (k : TokenKind) : Bool :=
  k == .keyword .exportKw || k == .keyword .asyncKw || k == d.functionWord
    || (varKeyword? k).isSome || startsStatement d k || startsExpression d k

/-- Comments as a `Declaration.comments` of their own, if there are any. -/
def Comment.declare : List Comment → Block
  | [] => []
  | c :: cs => [.comments (c :: cs)]

/-! ## Phrases -/

/-- The phrases of the language. -/
inductive Phrase where
  | names
  | block
  | signature
  /-- Elements between parentheses. -/
  | arguments
  | primary
  | pathFrom (target : Expr)
  | memberFrom (value : Expr)
  | member
  | step
  | unary
  | climbFrom (bound : Precedence) (left : Expr)
  | climb (bound : Precedence)
  | assignment
  | sequenceFrom (left : Expr)
  | expr
  | elements (close : TokenKind) (afterComma : Bool)
  | entry
  | entries
  | endStatement
  | conditional
  | loopHeader
  | statement
  | declaration
  | declarations
  | importedNames
  | imports

/-- What a `Phrase` means: the type of the trees that are read. -/
abbrev Phrase.Out : Phrase → Type
  | names | signature => List String
  | block | declarations => Block
  | arguments | primary | pathFrom _ | memberFrom _ | member | step | unary => Expr
  | climbFrom _ _ | climb _ | assignment | sequenceFrom _ | expr => Expr
  | elements _ _ => List Expr × Bool
  | entry => Entry
  | entries => List Entry
  | endStatement => Unit
  | conditional | statement => Statement
  | loopHeader => Option VarKeyword × List String × Bool × Expr
  | declaration => Declaration
  | importedNames => Import
  | imports => List Import

/-! ## Derivations -/

/-- A phrase stands at the front of a tape. -/
inductive Reads (d : Dialect) : (φ : Phrase) → Tape → φ.Out → Tape → Prop
  -- names
  | namesNone {S : Tape} (h : S.kind ≠ .symbol) : Reads d .names S [] S
  | namesLast {S S₁ : Tape} {n : String} (h : Takes S .symbol n S₁)
      (hc : S₁.kind ≠ .punct .comma) : Reads d .names S [n] S₁
  | namesMore {S S₁ S₂ S₃ : Tape} {n : String} {ns : List String} (h : Takes S .symbol n S₁)
      (hc : Passes S₁ (.punct .comma) S₂) (hns : Reads d .names S₂ ns S₃) :
      Reads d .names S (n :: ns) S₃
  -- blocks and parentheses
  | block {S S₁ S₂ S₃ : Tape} {body : Block} (h : Passes S d.blockOpen S₁)
      (hb : Reads d .declarations S₁ body S₂) (hc : Passes S₂ d.blockClose S₃) :
      Reads d .block S body S₃
  | signature {S S₁ S₂ S₃ : Tape} {ps : List String} (h : Passes S (.punct .lparen) S₁)
      (hp : Reads d .names S₁ ps S₂) (hc : Passes S₂ (.punct .rparen) S₃) :
      Reads d .signature S ps S₃
  | arguments {S S₁ S₂ S₃ : Tape} {es : List Expr} {comma : Bool}
      (h : Passes S (.punct .lparen) S₁)
      (he : Reads d (.elements (.punct .rparen) false) S₁ (es, comma) S₂)
      (hc : Passes S₂ (.punct .rparen) S₃) : Reads d .arguments S (.list es comma) S₃
  -- names and literals
  | symbol {S S₁ : Tape} {n : String} (h : Takes S .symbol n S₁) :
      Reads d .primary S (.symbol n) S₁
  | boolean {S S₁ : Tape} {t : String} (h : Takes S .boolean t S₁) :
      Reads d .primary S (.literal (.boolean (t == "true") t)) S₁
  | fixnum {S S₁ : Tape} {t : String} (h : Takes S .fixnum t S₁)
      (hr : Decimal.natOfDigits t.toList ≤ maxFixnum) :
      Reads d .primary S (.literal (.fixnum (Decimal.natOfDigits t.toList) t)) S₁
  | flonum {S S₁ : Tape} {t : String} (h : Takes S .flonum t S₁) :
      Reads d .primary S (.literal (.flonum (.ofLiteral t) t)) S₁
  | string {S S₁ : Tape} {t : String} (h : Takes S .string t S₁) :
      Reads d .primary S (.literal (.string t t)) S₁
  | regexp {S S₁ : Tape} {t : String} (h : Takes S .regexp t S₁) :
      Reads d .primary S (.literal (.regexp t t)) S₁
  -- what stands between brackets
  | object {S S₁ S₂ S₃ : Tape} {es : List Entry} (h : Passes S (.punct .lbrace) S₁)
      (he : Reads d .entries S₁ es S₂) (hc : Passes S₂ (.punct .rbrace) S₃) :
      Reads d .primary S (.object es) S₃
  | array {S S₁ S₂ S₃ : Tape} {es : List Expr} {comma : Bool} (h : Passes S (.punct .lbrack) S₁)
      (he : Reads d (.elements (.punct .rbrack) false) S₁ (es, comma) S₂)
      (hc : Passes S₂ (.punct .rbrack) S₃) : Reads d .primary S (.array es) S₃
  | grouping {S S₁ : Tape} {e : Expr} (h : Reads d .arguments S (.list [e] false) S₁)
      (ha : S₁.kind ≠ .punct .arrow) : Reads d .primary S (.grouping e) S₁
  | list {S S₁ : Tape} {es : List Expr} {comma : Bool}
      (h : Reads d .arguments S (.list es comma) S₁) (ha : S₁.kind ≠ .punct .arrow)
      (hne : es ≠ []) (htwo : ∀ e, es = [e] → comma = true) : Reads d .primary S (.list es comma) S₁
  -- functions
  | functionNamed {S S₁ S₂ S₃ S₄ : Tape} {n : String} {ps : List String} {body : Block}
      (h : Passes S d.functionWord S₁) (hn : Takes S₁ .symbol n S₂)
      (hp : Reads d .signature S₂ ps S₃) (hb : Reads d .block S₃ body S₄) :
      Reads d .primary S (.function (some n) ps body) S₄
  | functionBare {S S₁ S₂ S₃ : Tape} {ps : List String} {body : Block}
      (h : Passes S d.functionWord S₁) (hn : S₁.kind ≠ .symbol)
      (hp : Reads d .signature S₁ ps S₂) (hb : Reads d .block S₂ body S₃) :
      Reads d .primary S (.function none ps body) S₃
  | arrow {S S₁ S₂ S₃ : Tape} {ps : List String} {comma : Bool} {body : Expr}
      (h : Reads d .arguments S (.list (ps.map .symbol) comma) S₁)
      (ha : Passes S₁ (.punct .arrow) S₂) (ho : S₂.kind ≠ d.blockOpen)
      (hb : Reads d .assignment S₂ body S₃) : Reads d .primary S (.arrow ps body) S₃
  | arrowBlock {S S₁ S₂ S₃ : Tape} {ps : List String} {comma : Bool} {body : Block}
      (h : Reads d .arguments S (.list (ps.map .symbol) comma) S₁)
      (ha : Passes S₁ (.punct .arrow) S₂) (hb : Reads d .block S₂ body S₃) :
      Reads d .primary S (.arrowBlock ps body) S₃
  -- values and what follows them
  | pathEnd {S : Tape} {e : Expr} (h : S.kind ≠ .punct .dot) : Reads d (.pathFrom e) S e S
  | pathMore {S S₁ S₂ S₃ : Tape} {k : TokenKind} {n : String} {e x : Expr}
      (h : Passes S (.punct .dot) S₁) (hn : Takes S₁ k n S₂) (hk : k.namesMember = true)
      (hx : Reads d (.pathFrom (.binary .dot e (.symbol n))) S₂ x S₃) :
      Reads d (.pathFrom e) S x S₃
  | memberEnd {S : Tape} {e : Expr} (h : S.kind.extendsValue = false) :
      Reads d (.memberFrom e) S e S
  | memberCall {S S₁ S₂ : Tape} {e args x : Expr} (ho : e.isArrow = false)
      (h : Reads d .arguments S args S₁) (hx : Reads d (.memberFrom (.call e args)) S₁ x S₂) :
      Reads d (.memberFrom e) S x S₂
  | memberIndex {S S₁ S₂ S₃ S₄ : Tape} {e p x : Expr} (ho : e.isArrow = false)
      (h : Passes S (.punct .lbrack) S₁) (hp : Reads d .expr S₁ p S₂)
      (hc : Passes S₂ (.punct .rbrack) S₃) (hx : Reads d (.memberFrom (.index e p)) S₃ x S₄) :
      Reads d (.memberFrom e) S x S₄
  | memberDot {S S₁ S₂ S₃ : Tape} {k : TokenKind} {n : String} {e x : Expr}
      (ho : e.isArrow = false) (h : Passes S (.punct .dot) S₁) (hn : Takes S₁ k n S₂)
      (hk : k.namesMember = true)
      (hx : Reads d (.memberFrom (.binary .dot e (.symbol n))) S₂ x S₃) :
      Reads d (.memberFrom e) S x S₃
  | newBare {S S₁ S₂ S₃ : Tape} {n : String} {t : Expr} (h : Passes S (.keyword .newKw) S₁)
      (hn : Takes S₁ .symbol n S₂) (ht : Reads d (.pathFrom (.symbol n)) S₂ t S₃)
      (hp : S₃.kind ≠ .punct .lparen) : Reads d .member S (.unary .new t) S₃
  | newCall {S S₁ S₂ S₃ S₄ S₅ : Tape} {n : String} {t args x : Expr}
      (h : Passes S (.keyword .newKw) S₁) (hn : Takes S₁ .symbol n S₂)
      (ht : Reads d (.pathFrom (.symbol n)) S₂ t S₃) (ha : Reads d .arguments S₃ args S₄)
      (hx : Reads d (.memberFrom (.binary .new t args)) S₄ x S₅) : Reads d .member S x S₅
  | member {S S₁ S₂ : Tape} {e x : Expr} (h : S.kind ≠ .keyword .newKw)
      (he : Reads d .primary S e S₁) (hx : Reads d (.memberFrom e) S₁ x S₂) :
      Reads d .member S x S₂
  -- operators
  | stepNone {S S₁ : Tape} {e : Expr} (he : Reads d .member S e S₁) (h : stepOp? S₁.kind = none) :
      Reads d .step S e S₁
  | stepSome {S S₁ S₂ : Tape} {k : TokenKind} {op : StepOp} {e : Expr}
      (he : Reads d .member S e S₁) (h : Passes S₁ k S₂) (hk : stepOp? k = some op)
      (ho : e.isArrow = false) : Reads d .step S (.step op e) S₂
  | unaryNone {S S₁ : Tape} {e : Expr} (h : unaryOp? S.kind = none) (he : Reads d .step S e S₁) :
      Reads d .unary S e S₁
  | unarySome {S S₁ S₂ : Tape} {k : TokenKind} {op : UnaryOp} {e : Expr} (h : Passes S k S₁)
      (hk : unaryOp? k = some op) (he : Reads d .unary S₁ e S₂) (ho : e.isArrow = false) :
      Reads d .unary S (.unary op e) S₂
  | climbEnd {S : Tape} {b : Precedence} {l : Expr}
      (h : ∀ op, infixOp? S.kind = some op → op.precedence < b) : Reads d (.climbFrom b l) S l S
  | climbMore {S S₁ S₂ S₃ : Tape} {k : TokenKind} {op : BinaryOp} {b : Precedence}
      {l r x : Expr} (h : Passes S k S₁) (hk : infixOp? k = some op) (hb : b ≤ op.precedence)
      (hl : l.isArrow = false) (hu : ¬(op = .exp ∧ isOpenUnary l = true))
      (hr : Reads d (.climb (rightBound op)) S₁ r S₂) (ho : r.isArrow = false)
      (hx : Reads d (.climbFrom b (.binary op l r)) S₂ x S₃) : Reads d (.climbFrom b l) S x S₃
  | climb {S S₁ S₂ : Tape} {b : Precedence} {e x : Expr} (he : Reads d .unary S e S₁)
      (hx : Reads d (.climbFrom b e) S₁ x S₂) : Reads d (.climb b) S x S₂
  | assignmentNone {S S₁ : Tape} {e : Expr} (he : Reads d (.climb .or) S e S₁)
      (ha : S₁.kind ≠ .assign) (hq : S₁.kind ≠ .punct .question) : Reads d .assignment S e S₁
  | assignmentSome {S S₁ S₂ S₃ : Tape} {t : String} {op : BinaryOp} {l r : Expr}
      (hl : Reads d (.climb .or) S l S₁) (h : Takes S₁ .assign t S₂)
      (ht : BinaryOp.ofSpelling? t = some op) (hop : op.precedence = .assignment)
      (ho : l.isArrow = false) (hr : Reads d .assignment S₂ r S₃) :
      Reads d .assignment S (.binary op l r) S₃
  | ternary {S S₁ S₂ S₃ S₄ S₅ : Tape} {t y n : Expr} (ht : Reads d (.climb .or) S t S₁)
      (h : Passes S₁ (.punct .question) S₂) (ho : t.isArrow = false)
      (hy : Reads d .assignment S₂ y S₃) (hc : Passes S₃ (.punct .colon) S₄)
      (hn : Reads d .assignment S₄ n S₅) : Reads d .assignment S (.ternary t y n) S₅
  | sequenceEnd {S : Tape} {l : Expr} (h : S.kind ≠ .punct .comma) :
      Reads d (.sequenceFrom l) S l S
  | sequenceMore {S S₁ S₂ S₃ : Tape} {l r x : Expr} (h : Passes S (.punct .comma) S₁)
      (hr : Reads d .assignment S₁ r S₂)
      (hx : Reads d (.sequenceFrom (.binary .comma l r)) S₂ x S₃) :
      Reads d (.sequenceFrom l) S x S₃
  | expr {S S₁ S₂ : Tape} {e x : Expr} (he : Reads d .assignment S e S₁)
      (hx : Reads d (.sequenceFrom e) S₁ x S₂) : Reads d .expr S x S₂
  -- elements and entries
  | elementsNone {S : Tape} {close : TokenKind} {b : Bool} (h : S.kind = close ∨ S.kind = .eof) :
      Reads d (.elements close b) S ([], b) S
  | elementsLast {S S₁ : Tape} {close : TokenKind} {b : Bool} {e : Expr}
      (h : ¬(S.kind = close ∨ S.kind = .eof)) (he : Reads d .assignment S e S₁)
      (hc : S₁.kind ≠ .punct .comma) : Reads d (.elements close b) S ([e], false) S₁
  | elementsMore {S S₁ S₂ S₃ : Tape} {close : TokenKind} {b comma : Bool} {e : Expr}
      {es : List Expr} (h : ¬(S.kind = close ∨ S.kind = .eof)) (he : Reads d .assignment S e S₁)
      (hc : Passes S₁ (.punct .comma) S₂) (hes : Reads d (.elements close true) S₂ (es, comma) S₃) :
      Reads d (.elements close b) S (e :: es, comma) S₃
  | entryShort {S S₁ : Tape} {k : TokenKind} {t : String} {key : Key} (h : Takes S k t S₁)
      (hk : Key.ofToken? t k = some key) (hc : S₁.kind ≠ .punct .colon) :
      Reads d .entry S (.shorthand key) S₁
  | entryPair {S S₁ S₂ S₃ : Tape} {k : TokenKind} {t : String} {key : Key} {v : Expr}
      (h : Takes S k t S₁) (hk : Key.ofToken? t k = some key) (hc : Passes S₁ (.punct .colon) S₂)
      (hv : Reads d .assignment S₂ v S₃) : Reads d .entry S (.pair key v) S₃
  | entriesNone {S : Tape} (h : S.kind = .punct .rbrace ∨ S.kind = .eof) :
      Reads d .entries S [] S
  | entriesLast {S S₁ : Tape} {e : Entry} (h : ¬(S.kind = .punct .rbrace ∨ S.kind = .eof))
      (he : Reads d .entry S e S₁) (hc : S₁.kind ≠ .punct .comma) : Reads d .entries S [e] S₁
  | entriesMore {S S₁ S₂ S₃ : Tape} {e : Entry} {es : List Entry}
      (h : ¬(S.kind = .punct .rbrace ∨ S.kind = .eof)) (he : Reads d .entry S e S₁)
      (hc : Passes S₁ (.punct .comma) S₂) (hes : Reads d .entries S₂ es S₃) :
      Reads d .entries S (e :: es) S₃
  -- conditionals and loops
  | endSemicolon {S S₁ : Tape} (h : Passes S (.punct .semicolon) S₁) :
      Reads d .endStatement S () S₁
  | endClosed {S : Tape} (hd : d.isBlock = true) (h : closesConstruct S.kind = true) :
      Reads d .endStatement S () S
  | braceIf {S S₁ S₂ S₃ S₄ : Tape} {t : Expr} {body : Block} (hd : d = .brace)
      (h : Passes S (.punct .lparen) S₁) (ht : Reads d .expr S₁ t S₂)
      (hc : Passes S₂ (.punct .rparen) S₃) (hb : Reads d .block S₃ body S₄)
      (he : S₄.kind ≠ .keyword .elseKw) : Reads d .conditional S (.ifThen t body none) S₄
  | braceIfElse {S S₁ S₂ S₃ S₄ S₅ S₆ : Tape} {t : Expr} {body other : Block} (hd : d = .brace)
      (h : Passes S (.punct .lparen) S₁) (ht : Reads d .expr S₁ t S₂)
      (hc : Passes S₂ (.punct .rparen) S₃) (hb : Reads d .block S₃ body S₄)
      (he : Passes S₄ (.keyword .elseKw) S₅) (hi : S₅.kind ≠ .keyword .ifKw)
      (ho : Reads d .block S₅ other S₆) :
      Reads d .conditional S (.ifThen t body (some (.block other))) S₆
  | braceIfElseIf {S S₁ S₂ S₃ S₄ S₅ S₆ S₇ : Tape} {t : Expr} {body : Block} {other : Statement}
      (hd : d = .brace) (h : Passes S (.punct .lparen) S₁) (ht : Reads d .expr S₁ t S₂)
      (hc : Passes S₂ (.punct .rparen) S₃) (hb : Reads d .block S₃ body S₄)
      (he : Passes S₄ (.keyword .elseKw) S₅) (hi : Passes S₅ (.keyword .ifKw) S₆)
      (ho : Reads d .conditional S₆ other S₇) :
      Reads d .conditional S (.ifThen t body (some other)) S₇
  | blockIf {S S₁ S₂ S₃ S₄ : Tape} {t : Expr} {body : Block} (hd : d = .block)
      (ht : Reads d .expr S t S₁) (h : Passes S₁ (.keyword .thenKw) S₂)
      (hb : Reads d .declarations S₂ body S₃) (he : Passes S₃ (.keyword .endKw) S₄) :
      Reads d .conditional S (.ifThen t body none) S₄
  | blockIfElse {S S₁ S₂ S₃ S₄ S₅ S₆ : Tape} {t : Expr} {body other : Block} (hd : d = .block)
      (ht : Reads d .expr S t S₁) (h : Passes S₁ (.keyword .thenKw) S₂)
      (hb : Reads d .declarations S₂ body S₃) (he : Passes S₃ (.keyword .elseKw) S₄)
      (ho : Reads d .declarations S₄ other S₅) (hc : Passes S₅ (.keyword .endKw) S₆) :
      Reads d .conditional S (.ifThen t body (some (.block other))) S₆
  | blockIfElsif {S S₁ S₂ S₃ S₄ S₅ : Tape} {t : Expr} {body : Block} {other : Statement}
      (hd : d = .block) (ht : Reads d .expr S t S₁) (h : Passes S₁ (.keyword .thenKw) S₂)
      (hb : Reads d .declarations S₂ body S₃) (he : Passes S₃ (.keyword .elsifKw) S₄)
      (ho : Reads d .conditional S₄ other S₅) :
      Reads d .conditional S (.ifThen t body (some other)) S₅
  | loopHeader {S S₁ S₂ S₃ S₄ S₅ S₆ : Tape} {kw : Option VarKeyword} {b : Bool}
      {ns : List String} {e : Expr} (hk : Perhaps varKeyword? S kw S₁)
      (ho : Flag (.punct .lbrack) S₁ b S₂) (hns : Reads d .names S₂ ns S₃) (hne : ns ≠ [])
      (hc : PassesIf (.punct .rbrack) b S₃ S₄) (h : Passes S₄ (.keyword .ofKw) S₅)
      (he : Reads d .expr S₅ e S₆) : Reads d .loopHeader S (kw, ns, b, e) S₆
  -- statements
  | ifStatement {S S₁ S₂ : Tape} {st : Statement} (h : Passes S (.keyword .ifKw) S₁)
      (hs : Reads d .conditional S₁ st S₂) : Reads d .statement S st S₂
  | braceWhile {S S₁ S₂ S₃ S₄ S₅ : Tape} {t : Expr} {body : Block} (hd : d = .brace)
      (h : Passes S (.keyword .whileKw) S₁) (ho : Passes S₁ (.punct .lparen) S₂)
      (ht : Reads d .expr S₂ t S₃) (hc : Passes S₃ (.punct .rparen) S₄)
      (hb : Reads d .block S₄ body S₅) : Reads d .statement S (.whileLoop t body) S₅
  | blockWhile {S S₁ S₂ S₃ : Tape} {t : Expr} {body : Block} (hd : d = .block)
      (h : Passes S (.keyword .whileKw) S₁) (ht : Reads d .expr S₁ t S₂)
      (hb : Reads d .block S₂ body S₃) : Reads d .statement S (.whileLoop t body) S₃
  | braceFor {S S₁ S₂ S₃ S₄ S₅ : Tape} {kw : Option VarKeyword} {ns : List String} {b : Bool}
      {e : Expr} {body : Block} (hd : d = .brace) (h : Passes S (.keyword .forKw) S₁)
      (ho : Passes S₁ (.punct .lparen) S₂) (hh : Reads d .loopHeader S₂ (kw, ns, b, e) S₃)
      (hc : Passes S₃ (.punct .rparen) S₄) (hb : Reads d .block S₄ body S₅) :
      Reads d .statement S (.forLoop kw ns e body b) S₅
  | blockFor {S S₁ S₂ S₃ : Tape} {kw : Option VarKeyword} {ns : List String} {b : Bool}
      {e : Expr} {body : Block} (hd : d = .block) (h : Passes S (.keyword .forKw) S₁)
      (hh : Reads d .loopHeader S₁ (kw, ns, b, e) S₂) (hb : Reads d .block S₂ body S₃) :
      Reads d .statement S (.forLoop kw ns e body b) S₃
  | throw {S S₁ S₂ S₃ : Tape} {e : Expr} (h : Passes S (.keyword .throwKw) S₁)
      (he : Reads d .expr S₁ e S₂) (hs : Reads d .endStatement S₂ () S₃) :
      Reads d .statement S (.throw e) S₃
  | retNone {S S₁ S₂ : Tape} (h : Passes S (.keyword .returnKw) S₁)
      (hk : startsExpression d S₁.kind = false) (hs : Reads d .endStatement S₁ () S₂) :
      Reads d .statement S (.ret none) S₂
  | retSome {S S₁ S₂ S₃ : Tape} {e : Expr} (h : Passes S (.keyword .returnKw) S₁)
      (hk : startsExpression d S₁.kind = true) (he : Reads d .expr S₁ e S₂)
      (hs : Reads d .endStatement S₂ () S₃) : Reads d .statement S (.ret (some e)) S₃
  | blockStatement {S S₁ : Tape} {body : Block} (hb : Reads d .block S body S₁) :
      Reads d .statement S (.block body) S₁
  | exprStatement {S S₁ S₂ : Tape} {e : Expr} (ho : S.kind ≠ d.blockOpen)
      (hk : startsExpression d S.kind = true) (he : Reads d .expr S e S₁)
      (hs : Reads d .endStatement S₁ () S₂) : Reads d .statement S (.expr e) S₂
  -- declarations
  | function {S S₁ S₂ S₃ S₄ S₅ S₆ : Tape} {exported isAsync : Bool} {n : String}
      {ps : List String} {body : Block} (he : Flag (.keyword .exportKw) S exported S₁)
      (ha : Flag (.keyword .asyncKw) S₁ isAsync S₂) (h : Passes S₂ d.functionWord S₃)
      (hn : Takes S₃ .symbol n S₄) (hp : Reads d .signature S₄ ps S₅)
      (hb : Reads d .block S₅ body S₆) :
      Reads d .declaration S (.function n ps body exported isAsync) S₆
  | var {S S₁ S₂ S₃ S₄ : Tape} {exported : Bool} {k : TokenKind} {kw : VarKeyword} {n : String}
      (he : Flag (.keyword .exportKw) S exported S₁) (h : Passes S₁ k S₂)
      (hk : varKeyword? k = some kw) (hn : Takes S₂ .symbol n S₃)
      (ha : ¬(S₃.kind = .assign ∧ S₃.text = "=")) (hs : Reads d .endStatement S₃ () S₄) :
      Reads d .declaration S (.var kw n none exported) S₄
  | varValue {S S₁ S₂ S₃ S₄ S₅ S₆ : Tape} {exported : Bool} {k : TokenKind} {kw : VarKeyword}
      {n : String} {v : Expr} (he : Flag (.keyword .exportKw) S exported S₁) (h : Passes S₁ k S₂)
      (hk : varKeyword? k = some kw) (hn : Takes S₂ .symbol n S₃)
      (ha : Takes S₃ .assign "=" S₄) (hv : Reads d .assignment S₄ v S₅)
      (hs : Reads d .endStatement S₅ () S₆) :
      Reads d .declaration S (.var kw n (some v) exported) S₆
  | vars {S S₁ S₂ S₃ S₄ S₅ S₆ S₇ S₈ : Tape} {exported : Bool} {k : TokenKind} {kw : VarKeyword}
      {ns : List String} {v : Expr} (he : Flag (.keyword .exportKw) S exported S₁)
      (h : Passes S₁ k S₂) (hk : varKeyword? k = some kw) (ho : Passes S₂ (.punct .lbrack) S₃)
      (hns : Reads d .names S₃ ns S₄) (hne : ns ≠ []) (hc : Passes S₄ (.punct .rbrack) S₅)
      (ha : Takes S₅ .assign "=" S₆) (hv : Reads d .assignment S₆ v S₇)
      (hs : Reads d .endStatement S₇ () S₈) : Reads d .declaration S (.vars kw ns v exported) S₈
  | statement {S S₁ : Tape} {st : Statement} (he : S.kind ≠ .keyword .exportKw)
      (ha : S.kind ≠ .keyword .asyncKw) (hf : S.kind ≠ d.functionWord)
      (hk : varKeyword? S.kind = none) (hs : Reads d .statement S st S₁) :
      Reads d .declaration S (.statement st) S₁
  | declarationsEnd {S : Tape} (h : startsDeclaration d S.kind = false) :
      Reads d .declarations S (Comment.declare S.waiting) S.flush
  | declarationsMore {S S₁ S₂ : Tape} {x : Declaration} {xs : Block}
      (hx : Reads d .declaration S.flush x S₁) (hxs : Reads d .declarations S₁ xs S₂) :
      Reads d .declarations S (Comment.declare S.waiting ++ x :: xs) S₂
  -- imports
  | importWhole {S S₁ S₂ S₃ S₄ S₅ : Tape} {n p : String} (h : Passes S (.punct .star) S₁)
      (ha : Passes S₁ (.keyword .asKw) S₂) (hn : Takes S₂ .symbol n S₃)
      (hf : Passes S₃ (.keyword .fromKw) S₄) (hp : Takes S₄ .string p S₅) :
      Reads d .importedNames S (.whole n p) S₅
  | importNames {S S₁ S₂ S₃ S₄ S₅ : Tape} {ns : List String} {p : String}
      (h : Passes S (.punct .lbrace) S₁) (hn : Reads d .names S₁ ns S₂)
      (hc : Passes S₂ (.punct .rbrace) S₃) (hf : Passes S₃ (.keyword .fromKw) S₄)
      (hp : Takes S₄ .string p S₅) : Reads d .importedNames S (.names ns p) S₅
  | importsNone {S : Tape} (h : S.kind ≠ .keyword .importKw) : Reads d .imports S [] S
  | importsMore {S S₁ S₂ S₃ S₄ : Tape} {i : Import} {is : List Import}
      (h : Passes S (.keyword .importKw) S₁) (hi : Reads d .importedNames S₁ i S₂)
      (hs : Reads d .endStatement S₂ () S₃) (his : Reads d .imports S₃ is S₄) :
      Reads d .imports S (i :: is) S₄

/-- The module line at the start of a file, if there is one. -/
inductive ModuleLine (d : Dialect) : Tape → Option String → Tape → Prop
  | none {S : Tape} (h : S.kind ≠ .keyword .moduleKw) : ModuleLine d S none S
  | some {S S₁ S₂ S₃ : Tape} {n : String} (h : Passes S (.keyword .moduleKw) S₁)
      (hn : Takes S₁ .symbol n S₂) (hs : Reads d .endStatement S₂ () S₃) :
      ModuleLine d S (some n) S₃

/-- The comments before the first import, which `Program.leading` keeps if there are imports. -/
inductive BeforeImports : Tape → List Comment → Tape → Prop
  | taken {S : Tape} (h : S.kind = .keyword .importKw) : BeforeImports S S.waiting S.flush
  | kept {S : Tape} (h : S.kind ≠ .keyword .importKw) : BeforeImports S [] S

/-- A tape without tokens and comments, and no trailer: a file that holds no `Program`. -/
def Blank (S : Tape) (trailer : Option String) : Prop :=
  S.kind = .eof ∧ S.waiting = [] ∧ trailer = none

/-- A whole file: `ModuleLine`, the imports and the declarations, up to the end of the tape. -/
inductive ReadsProgram (d : Dialect) (S : Tape) (trailer : Option String) : Program → Prop
  | mk {S₁ S₂ S₃ S₄ : Tape} {m : Option String} {cs : List Comment} {is : List Import}
      {body : Block} (hne : ¬Blank S trailer) (hm : ModuleLine d S.flush m S₁)
      (hcs : BeforeImports S₁ cs S₂) (his : Reads d .imports S₂ is S₃)
      (hb : Reads d .declarations S₃ body S₄) (he : S₄ = [.token .eof ""]) :
      ReadsProgram d S trailer
        { leading := S.waiting ++ cs, moduleName := m, imports := is, body,
          trailer := trailer.getD "" }

/-! ## Derivations only go forward -/

/-- `Passes` takes one token; `Flag`, `PassesIf` and `Perhaps` take at most one. -/
@[grind →] theorem Passes.tokens_eq {S S' : Tape} {k : TokenKind} (h : Passes S k S') :
    S.tokens = S'.tokens + 1 := by
  obtain ⟨t, ht⟩ := h
  exact ht.tokens_eq

@[grind →] theorem Flag.tokens_le {S S' : Tape} {k : TokenKind} {b : Bool} (h : Flag k S b S') :
    S'.tokens ≤ S.tokens := by
  cases h with
  | yes h => have := h.tokens_eq; omega
  | no h => exact Nat.le_refl _

@[grind →] theorem PassesIf.tokens_le {S S' : Tape} {k : TokenKind} {b : Bool}
    (h : PassesIf k b S S') : S'.tokens ≤ S.tokens := by
  cases h with
  | yes h => have := h.tokens_eq; omega
  | no => exact Nat.le_refl _

@[grind →] theorem Perhaps.tokens_le {α : Type} {means : TokenKind → Option α} {S S' : Tape}
    {a : Option α} (h : Perhaps means S a S') : S'.tokens ≤ S.tokens := by
  cases h with
  | some h => have := h.tokens_eq; omega
  | none h => exact Nat.le_refl _

/-- A derivation leaves no more tokens than it found. `tokens_lt` is the strict form. -/
@[grind →] theorem Reads.tokens_le {d : Dialect} {φ : Phrase} {S S' : Tape} {a : φ.Out}
    (h : Reads d φ S a S') : S'.tokens ≤ S.tokens := by
  induction h <;> grind only [→ Takes.tokens_eq, → Passes.tokens_eq, → Flag.tokens_le,
    → PassesIf.tokens_le, → Perhaps.tokens_le, Tape.tokens_flush]

/-- The phrases that may be empty, or go on from a tree that has been read already, as
`memberFrom` does. -/
def Phrase.mayBeEmpty : Phrase → Bool
  | names | pathFrom _ | memberFrom _ | climbFrom _ _ | sequenceFrom _ | elements _ _ | entries
  | endStatement | declarations | imports => true
  | _ => false

/-- All phrases that are not `mayBeEmpty` take at least one token. -/
theorem Reads.tokens_lt {d : Dialect} {φ : Phrase} {S S' : Tape} {a : φ.Out}
    (h : Reads d φ S a S') (hφ : φ.mayBeEmpty = false) : S'.tokens < S.tokens := by
  suffices hlt : φ.mayBeEmpty = true ∨ S'.tokens < S.tokens from hlt.resolve_left (by simp [hφ])
  clear hφ
  induction h <;> simp only [Phrase.mayBeEmpty, Bool.false_eq_true, false_or, true_or] at * <;>
    grind only [→ Takes.tokens_eq, → Passes.tokens_eq, → Flag.tokens_le, → PassesIf.tokens_le,
      → Perhaps.tokens_le, → Reads.tokens_le]

/-! ## What a path is -/

/-- Going on from a path gives a path. -/
def Phrase.KeepsPath : (φ : Phrase) → φ.Out → Prop
  | .pathFrom t, e => t.isSymbolPath = true → e.isSymbolPath = true
  | _, _ => True

/-- Every derivation has the property that `Phrase.KeepsPath` states of the phrase `pathFrom`. -/
theorem Reads.keepsPath {d : Dialect} {φ : Phrase} {S S' : Tape} {a : φ.Out}
    (h : Reads d φ S a S') : φ.KeepsPath a := by
  induction h with
  | pathEnd _ => exact id
  | pathMore _ _ _ _ ih =>
    intro ht
    exact ih (by simp [Expr.isSymbolPath, Expr.isSymbol, ht])
  | _ => trivial

/-- What follows `new` is a path, as `Expr.isSymbolPath` tells. -/
theorem Reads.isSymbolPath {d : Dialect} {S S' : Tape} {n : String} {t : Expr}
    (h : Reads d (.pathFrom (.symbol n)) S t S') : t.isSymbolPath = true :=
  h.keepsPath rfl

/-- The phrase `arguments` means a list. -/
theorem Reads.isList {d : Dialect} {S S' : Tape} {e : Expr} (h : Reads d .arguments S e S') :
    e.isList = true := by
  cases h with
  | arguments => rfl

/-- A block begins with `Dialect.blockOpen`. -/
theorem Reads.kind_of_block {d : Dialect} {S S' : Tape} {body : Block}
    (h : Reads d .block S body S') : S.kind = d.blockOpen := by
  cases h with
  | block h _ _ => exact h.kind_eq

/-! ## What declarations leave -/

/-- Declarations leave no comment that waits. -/
def Phrase.LeavesNoComment : Phrase → Tape → Prop
  | .declarations, S => S.waiting = []
  | _, _ => True

/-- Comments before the end of the declarations are a declaration, so none of them waits. -/
theorem Reads.leavesNoComment {d : Dialect} {φ : Phrase} {S S' : Tape} {a : φ.Out}
    (h : Reads d φ S a S') : φ.LeavesNoComment S' := by
  induction h with
  | declarationsEnd _ => exact Tape.waiting_flush _
  | declarationsMore _ _ _ ih => exact ih
  | _ => trivial

/-- `leavesNoComment` for the one phrase that it says something of. -/
theorem Reads.waiting_of_declarations {d : Dialect} {S S' : Tape} {body : Block}
    (h : Reads d .declarations S body S') : S'.waiting = [] :=
  h.leavesNoComment

end Diglot

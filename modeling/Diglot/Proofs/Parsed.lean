import Diglot.Print.Tree
import Diglot.Proofs.Classification
import Diglot.Proofs.Nodes

/-!
# What parsed trees are like

A tree that is read from a tape is made of the tokens on it, and its shape is what the grammar
allows. What follows from this for a single node is collected in `Node.Parsed`, and holds of every
node of a parsed tree; printing needs nothing else of the nodes.

- `Tape.Genuine`: a tape of genuine tokens and comments, which is what a text is cut into.
- `Node.Parsed`: its names and spellings are genuine, its parts are of the form that its kind asks
  for, and where it stands it is read as what it is.
- `Reads.startsExpression`, `Reads.begins`: what the first token tells about an expression.
- `Reads.parsed`, `ReadsProgram.parsed`: the nodes of a parsed tree are of this kind.
-/

namespace Diglot

open Rules

/-! ## Genuine tapes -/

/-- The text of a comment is one that comments of its kind have. -/
def Comment.Genuine (d : Dialect) (c : Comment) : Prop :=
  match c.kind with
  | .line => Diglot.Genuine d c.text .lineComment
  | .block => Diglot.Genuine d c.text .blockComment

theorem Comment.Genuine.text_ne_empty {d : Dialect} {c : Comment} (h : c.Genuine d) :
    c.text ≠ "" := by
  obtain ⟨_ | _, text⟩ := c
  · rintro rfl
    exact absurd h.1 (by decide)
  · exact h.1

/-- A genuine token or comment. -/
def Piece.Genuine (d : Dialect) : Piece → Prop
  | .token k t => Diglot.Genuine d t k
  | .comment c => c.Genuine d

/-- A tape of pieces that are all `Piece.Genuine`. -/
def Tape.Genuine (d : Dialect) (S : Tape) : Prop :=
  ∀ p ∈ S, p.Genuine d

/-- A `Proper` tape is so. -/
theorem Tape.Proper.allGenuine {d : Dialect} {S : Tape} (h : S.Proper d) : S.Genuine d := by
  intro p hp
  cases p with
  | token k t => exact h.genuine k t hp
  | comment c =>
    obtain ⟨_ | _, text⟩ := c
    · exact h.line text hp
    · exact h.block text hp

/-- What `Takes` leaves is genuine if what it is taken from is. -/
theorem Takes.genuine {d : Dialect} {S S' : Tape} {k : TokenKind} {t : String}
    (h : Takes S k t S') (hS : S.Genuine d) : S'.Genuine d :=
  fun _ hp => hS _ (h.mem_of_mem hp)

/-- The token that is taken is genuine too. -/
theorem Takes.genuine_token {d : Dialect} {S S' : Tape} {k : TokenKind} {t : String}
    (h : Takes S k t S') (hS : S.Genuine d) : Diglot.Genuine d t k :=
  hS _ h.mem

theorem Takes.isName {d : Dialect} {S S' : Tape} {n : String} (h : Takes S .symbol n S')
    (hS : S.Genuine d) : IsName d n :=
  h.genuine_token hS

theorem Passes.genuine {d : Dialect} {S S' : Tape} {k : TokenKind} (h : Passes S k S')
    (hS : S.Genuine d) : S'.Genuine d := by
  obtain ⟨t, ht⟩ := h
  exact ht.genuine hS

theorem Flag.genuine {d : Dialect} {S S' : Tape} {k : TokenKind} {b : Bool} (h : Flag k S b S')
    (hS : S.Genuine d) : S'.Genuine d := by
  cases h with
  | yes h => exact h.genuine hS
  | no h => exact hS

theorem PassesIf.genuine {d : Dialect} {S S' : Tape} {k : TokenKind} {b : Bool}
    (h : PassesIf k b S S') (hS : S.Genuine d) : S'.Genuine d := by
  cases h with
  | yes h => exact h.genuine hS
  | no => exact hS

theorem Perhaps.genuine {d : Dialect} {α : Type} {means : TokenKind → Option α} {S S' : Tape}
    {a : Option α} (h : Perhaps means S a S') (hS : S.Genuine d) : S'.Genuine d := by
  cases h with
  | some h => exact h.genuine hS
  | none h => exact hS

/-- Comments that no longer wait leave the others as they are. -/
theorem Tape.Genuine.flush {d : Dialect} {S : Tape} (hS : S.Genuine d) : S.flush.Genuine d := by
  intro p hp
  refine hS p ?_
  rw [← S.waiting_append_flush]
  exact List.mem_append_right _ hp

/-- The comments that wait are genuine. -/
theorem Tape.Genuine.waiting {d : Dialect} {S : Tape} (hS : S.Genuine d) :
    ∀ c ∈ S.waiting, c.Genuine d := by
  intro c hc
  refine hS (.comment c) ?_
  rw [← S.waiting_append_flush]
  exact List.mem_append_left _ (List.mem_map_of_mem hc)

/-- What a derivation leaves was on its tape, so it is genuine. -/
theorem Reads.genuine {d d' : Dialect} {φ : Phrase} {S S' : Tape} {a : φ.Out}
    (h : Reads d φ S a S') : S.Genuine d' → S'.Genuine d' := by
  induction h <;> grind only [→ Takes.genuine, → Passes.genuine, → Flag.genuine,
    → PassesIf.genuine, → Perhaps.genuine, → Tape.Genuine.flush]

/-! ## First tokens -/

/-- The phrases that are whole expressions, and do not go on from one. -/
def Phrase.isExpression : Phrase → Bool
  | .arguments | .primary | .member | .step | .unary | .climb _ | .assignment | .expr => true
  | _ => false

/-- An expression begins with a token that `startsExpression`. -/
theorem Reads.startsExpression {d : Dialect} {φ : Phrase} {S S' : Tape} {a : φ.Out}
    (h : Reads d φ S a S') (hφ : φ.isExpression = true) :
    Diglot.startsExpression d S.kind = true := by
  induction h with
  | symbol h | boolean h | fixnum h _ | flonum h | string h | regexp h | arguments h _ _
  | object h _ _ | array h _ _ | newBare h _ _ _ | newCall h _ _ _ _ =>
    rw [h.kind_eq]
    cases d <;> rfl
  | functionNamed h _ _ _ | functionBare h _ _ _ =>
    rw [h.kind_eq]
    cases d <;> rfl
  -- which token it is is known from the operator only
  | unarySome h hk _ _ _ =>
    rw [h.kind_eq]
    unfold unaryOp? at hk
    split at hk <;> first | (cases d <;> rfl) | cases hk
  | grouping _ _ ih | list _ _ _ _ ih | arrow _ _ _ _ ih _ | arrowBlock _ _ _ ih _
  | member _ _ _ ih _ | stepNone _ _ ih | stepSome _ _ _ _ ih | unaryNone _ _ ih | climb _ _ ih _
  | assignmentNone _ _ _ ih | assignmentSome _ _ _ _ _ _ ih _ | ternary _ _ _ _ _ _ ih _ _
  | expr _ _ ih _ => exact ih rfl
  | _ => cases hφ

namespace Expr

/-- An `Expr.object`. -/
def isObject : Expr → Bool
  | .object _ => true
  | _ => false

/-- An `Expr.function`, with or without a name. -/
def isFunction : Expr → Bool
  | .function .. => true
  | _ => false

/-- Whether an expression `readsAsBlock` is seen from its `leftmost` node. -/
theorem readsAsBlock_eq (s : Surface) (e : Expr) :
    e.readsAsBlock s = (e.leftmost.isObject && s.braceOpensBlock) := by
  unfold readsAsBlock
  cases e.leftmost <;> rfl

/-- So is whether it `isAmbiguous`. -/
theorem isAmbiguous_eq (s : Surface) (e : Expr) :
    e.isAmbiguous s = (e.leftmost.isObject && s.braceOpensBlock || e.leftmost.isFunction) := by
  unfold isAmbiguous
  cases e.leftmost <;> simp [isObject, isFunction]

/-- An expression begins with an object, or with a function, just when its first token does. -/
structure BeginsWith (d : Dialect) (e : Expr) (k : TokenKind) : Prop where
  object : e.leftmost.isObject = (k == .punct .lbrace)
  function : e.leftmost.isFunction = (k == d.functionWord)

end Expr

/-- What a phrase begins with, by `BeginsWith`. Going on from an expression does not change its
`leftmost` node. -/
def Phrase.Begins (d : Dialect) : (φ : Phrase) → Tape → φ.Out → Prop
  | .arguments, S, e | .primary, S, e | .member, S, e | .step, S, e | .unary, S, e | .climb _, S, e
  | .assignment, S, e | .expr, S, e => e.BeginsWith d S.kind
  | .memberFrom l, _, e | .climbFrom _ l, _, e | .sequenceFrom l, _, e => e.leftmost = l.leftmost
  | _, _, _ => True

/-- An operation begins where its left operand does. -/
theorem leftmost_of_infixOp? {k : TokenKind} {op : BinaryOp} (h : infixOp? k = some op)
    (l r : Expr) : (Expr.binary op l r).leftmost = l.leftmost := by
  unfold infixOp? at h
  split at h <;> cases h <;> rfl

theorem leftmost_of_assignment {op : BinaryOp} (h : op.precedence = .assignment) (l r : Expr) :
    (Expr.binary op l r).leftmost = l.leftmost := by
  cases op <;> first | rfl | exact absurd h (by decide)

/-- The first token tells whether what is read begins with an object or a function. -/
theorem Reads.begins {d : Dialect} {φ : Phrase} {S S' : Tape} {a : φ.Out}
    (h : Reads d φ S a S') : φ.Begins d S a := by
  induction h with
  | symbol h | boolean h | fixnum h _ | flonum h | string h | regexp h | arguments h _ _
  | object h _ _ | array h _ _ | newBare h _ _ _ | functionNamed h _ _ _ | functionBare h _ _ _ =>
    simp only [Phrase.Begins, h.kind_eq]
    cases d <;> exact ⟨rfl, rfl⟩
  | newCall h _ _ _ _ _ _ ih =>
    simp only [Phrase.Begins, h.kind_eq] at ih ⊢
    cases d <;> exact ⟨by rw [ih]; rfl, by rw [ih]; rfl⟩
  | unarySome h hk _ _ _ =>
    simp only [Phrase.Begins, h.kind_eq]
    unfold unaryOp? at hk
    split at hk <;> first | (cases d <;> exact ⟨rfl, rfl⟩) | cases hk
  | grouping _ _ ih | list _ _ _ _ ih | arrow _ _ _ _ ih _ | arrowBlock _ _ _ ih _
  | stepNone _ _ ih | stepSome _ _ _ _ ih | unaryNone _ _ ih | assignmentNone _ _ _ ih
  | ternary _ _ _ _ _ _ ih _ _ => exact ⟨ih.object, ih.function⟩
  | @assignmentSome _ _ _ _ _ _ l r _ _ _ hop _ _ ih _ =>
    have hleftmost := leftmost_of_assignment hop l r
    exact ⟨by rw [hleftmost, ih.object], by rw [hleftmost, ih.function]⟩
  -- going on from a value leaves its first node the first
  | member _ _ _ ih ihx | climb _ _ ih ihx | expr _ _ ih ihx =>
    simp only [Phrase.Begins] at ih ihx ⊢
    exact ⟨by rw [ihx, ih.object], by rw [ihx, ih.function]⟩
  | memberEnd _ | climbEnd _ | sequenceEnd _ => rfl
  | memberCall _ _ _ _ ih | memberIndex _ _ _ _ _ _ ih | memberDot _ _ _ _ _ ih
  | sequenceMore _ _ _ _ ih => exact ih
  | climbMore _ hk _ _ _ _ _ _ _ ih =>
    exact Eq.trans ih (leftmost_of_infixOp? hk _ _)
  | _ => trivial

/-- Where a block may begin, an expression that `readsAsBlock` is not read. -/
theorem Expr.BeginsWith.readsAsBlock {d : Dialect} {e : Expr} {k : TokenKind}
    (h : e.BeginsWith d k) (hk : k ≠ d.blockOpen) : e.readsAsBlock d.surface = false := by
  rw [Expr.readsAsBlock_eq, h.object]
  cases d with
  | brace => simpa [Dialect.surface, Dialect.blockOpen] using hk
  | block => simp [Dialect.surface]

/-- Where a function may begin as well, neither is one that `isAmbiguous`. -/
theorem Expr.BeginsWith.isAmbiguous {d : Dialect} {e : Expr} {k : TokenKind}
    (h : e.BeginsWith d k) (hk : k ≠ d.blockOpen) (hf : k ≠ d.functionWord) :
    e.isAmbiguous d.surface = false := by
  rw [Expr.isAmbiguous_eq, ← Expr.readsAsBlock_eq, h.readsAsBlock hk, h.function]
  simpa using hf

/-! ## Parsed nodes -/

/-- The kind of token that a `Literal` is. -/
def Literal.kind : Literal → TokenKind
  | .boolean .. => .boolean
  | .fixnum .. => .fixnum
  | .flonum .. => .flonum
  | .string .. => .string
  | .regexp .. => .regexp

/-- A key that is a string has the spelling of one. -/
def Key.Genuine (d : Dialect) : Key → Prop
  | .symbol _ => True
  | .string _ text => Diglot.Genuine d text .string

/-- An import with names that are names, and a path that is a string. -/
def Import.Genuine (d : Dialect) : Import → Prop
  | .names ns path => (∀ n ∈ ns, IsName d n) ∧ Diglot.Genuine d path .string
  | .whole name path => IsName d name ∧ Diglot.Genuine d path .string

/-- What the kind of a node asks of its parts, and what its place asks of the node: spellings
that are `Genuine`, operands of the right form, and nothing that would be read as a block. -/
def Node.Formed (d : Dialect) : Node → Prop
  | .expr (.literal value) => Genuine d value.text value.kind
  | .expr (.unary op operand) => op = .new → operand.isSymbolPath = true
  | .expr (.binary op left right) =>
    (op = .new → left.isSymbolPath = true ∧ right.isList = true) ∧
      (op = .dot → ∃ name, right = .symbol name ∧ IsWord name)
  | .expr (.call _ arguments) => arguments.isList = true
  | .expr (.arrow _ body) => body.readsAsBlock d.surface = false
  | .entry (.shorthand key) | .entry (.pair key _) => key.Genuine d
  | .statement (.ifThen _ _ (some (.block _))) => True
  | .statement (.ifThen _ _ (some (.ifThen ..))) => True
  | .statement (.ifThen _ _ (some _)) => False
  | .statement (.expr value) => value.isAmbiguous d.surface = false
  | .declaration (.comments cs) => cs ≠ [] ∧ ∀ c ∈ cs, c.Genuine d
  | _ => True

/-- A node as it stands in a parsed tree: its names are `IsName`, and it is `Node.Formed`. -/
structure Node.Parsed (d : Dialect) (n : Node) : Prop where
  names : ∀ name ∈ n.names, IsName d name
  formed : n.Formed d

/-- What parsing makes sure of, phrase by phrase: names are names, and nodes are `Node.Parsed`. -/
def Phrase.Parsed (d : Dialect) : (φ : Phrase) → Tape → φ.Out → Prop
  | .names, _, ns | .signature, _, ns => ∀ n ∈ ns, IsName d n
  | .loopHeader, _, (_, ns, _, e) => (∀ n ∈ ns, IsName d n) ∧ AllNodes (Node.Parsed d) e.nodes
  | .statement, S, st => S.kind ≠ d.functionWord → AllNodes (Node.Parsed d) st.nodes
  | .importedNames, _, i => i.Genuine d
  | .imports, _, is => ∀ i ∈ is, i.Genuine d
  | φ, _, a => AllNodes (Node.Parsed d) φ.earlier → AllNodes (Node.Parsed d) (φ.nodes a)

/-- What is read as a `.conditional` is one. -/
theorem Reads.isConditional {d : Dialect} {S S' : Tape} {st : Statement}
    (h : Reads d .conditional S st S') : ∃ test body other, st = .ifThen test body other := by
  cases h <;> exact ⟨_, _, _, rfl⟩

theorem Node.parsed_iff {d : Dialect} {n : Node} :
    n.Parsed d ↔ (∀ name ∈ n.names, IsName d name) ∧ n.Formed d :=
  ⟨fun h => ⟨h.names, h.formed⟩, fun h => ⟨h.1, h.2⟩⟩

/-- A token that `namesMember` is a word. -/
theorem IsWord.of_namesMember {d : Dialect} {k : TokenKind} {text : String}
    (hk : k.namesMember = true) (h : Genuine d text k) : IsWord text := by
  cases k with
  | symbol => exact h.word
  | boolean => exact Lexeme.isWord_boolean h
  | keyword w =>
    obtain ⟨-, rfl⟩ := h
    exact Lexeme.isWord_spelling w
  | _ => cases hk

/-- A member with a word for its name is `Node.Parsed`. -/
theorem Node.parsed_dot {d : Dialect} {e : Expr} {n : String} (hn : IsWord n) :
    Node.Parsed d (.expr (.binary .dot e (.symbol n))) where
  names := by simp [Node.names]
  formed := ⟨nofun, fun _ => ⟨n, rfl, hn⟩⟩

/-- So is any operation but `BinaryOp.new` and `BinaryOp.dot`. -/
theorem Node.parsed_binary {d : Dialect} {op : BinaryOp} {l r : Expr} (hnew : op ≠ .new)
    (hdot : op ≠ .dot) : Node.Parsed d (.expr (.binary op l r)) where
  names := by simp [Node.names]
  formed := ⟨fun h => absurd h hnew, fun h => absurd h hdot⟩

theorem ne_new_of_infixOp? {k : TokenKind} {op : BinaryOp} (h : infixOp? k = some op) :
    op ≠ .new := by
  rintro rfl
  unfold infixOp? at h
  split at h <;> simp at h

/-- Comments that stand alone are a node that is `Node.Parsed`. -/
theorem Tape.Genuine.declare {d : Dialect} {S : Tape} (hS : S.Genuine d) :
    AllNodes (Node.Parsed d) (Declaration.nodesOf (Comment.declare S.waiting)) := by
  have hgenuine := hS.waiting
  cases hcs : S.waiting with
  | nil => simp [Comment.declare, Declaration.nodesOf]
  | cons c cs =>
    rw [hcs] at hgenuine
    simp only [Comment.declare, Declaration.nodesOf, Declaration.nodes, List.append_nil,
      allNodes_cons, allNodes_nil, and_true]
    exact ⟨by simp [Node.names], by simp, hgenuine⟩

theorem Node.parsed_entry {d : Dialect} {key : Key}
    (h : key.Genuine d ∧ ∀ n ∈ key.names, IsName d n) :
    Node.Parsed d (.entry (.shorthand key)) ∧ ∀ value, Node.Parsed d (.entry (.pair key value)) :=
  ⟨⟨h.2, h.1⟩, fun _ => ⟨h.2, h.1⟩⟩

/-- The key that `Key.ofToken?` makes of a genuine token. -/
theorem Key.genuine_ofToken? {d : Dialect} {text : String} {k : TokenKind} {key : Key}
    (hk : Key.ofToken? text k = some key) (h : Diglot.Genuine d text k) :
    key.Genuine d ∧ ∀ n ∈ key.names, IsName d n := by
  cases k <;> cases hk
  · exact ⟨h, by simp [Key.names]⟩
  · exact ⟨trivial, by simpa [Key.names, Diglot.Genuine] using h⟩

/-- The parameters of an arrow function are read as expressions first, and are names if these
are `Node.Parsed`. -/
theorem isName_of_allParsed {d : Dialect} {ps : List String} {comma : Bool}
    (h : AllNodes (Node.Parsed d) (Expr.list (ps.map .symbol) comma).nodes) :
    ∀ p ∈ ps, IsName d p := by
  have h' := (allNodes_cons.1 h).2
  clear h
  induction ps with
  | nil => simp
  | cons p ps ih =>
    simp only [List.map_cons, Expr.nodesOf, Expr.nodes, List.cons_append, List.nil_append,
      allNodes_cons] at h'
    intro q hq
    rcases List.mem_cons.1 hq with rfl | hq
    · exact h'.1.names q (by simp [Node.names])
    · exact ih h'.2 q hq

/-- The nodes of a tree that is read from genuine tokens are `Node.Parsed`. -/
theorem Reads.parsed {d : Dialect} {φ : Phrase} {S S' : Tape} {a : φ.Out}
    (h : Reads d φ S a S') : S.Genuine d → φ.Parsed d S a := by
  induction h with
  | boolean h | fixnum h _ | flonum h | string h | regexp h =>
    intro hS _
    exact allNodes_cons.2 ⟨⟨by simp [Node.names], h.genuine_token hS⟩, allNodes_nil⟩
  | @arrow S S₁ S₂ S₃ ps comma body h ha ho hb ih ihb =>
    intro hS _
    have hS₁ := h.genuine hS
    exact allNodes_cons.2 ⟨⟨isName_of_allParsed (ih hS allNodes_nil), hb.begins.readsAsBlock ho⟩,
      ihb (ha.genuine hS₁) allNodes_nil⟩
  | arrowBlock h ha hb ih ihb =>
    intro hS _
    have hS₁ := h.genuine hS
    exact allNodes_cons.2 ⟨⟨isName_of_allParsed (ih hS allNodes_nil), trivial⟩,
      ihb (ha.genuine hS₁) allNodes_nil⟩
  | pathMore h hn hk hx ih =>
    intro hS he
    have hword := IsWord.of_namesMember hk (hn.genuine_token (h.genuine hS))
    refine ih (hn.genuine (h.genuine hS)) ?_
    simpa [Phrase.earlier, Expr.nodes] using ⟨Node.parsed_dot hword, he⟩
  | memberDot ho h hn hk hx ih =>
    intro hS he
    have hword := IsWord.of_namesMember hk (hn.genuine_token (h.genuine hS))
    refine ih (hn.genuine (h.genuine hS)) ?_
    simpa [Phrase.earlier, Expr.nodes] using ⟨Node.parsed_dot hword, he⟩
  | memberCall ho h hx ih ihx =>
    intro hS he
    refine ihx (h.genuine hS) ?_
    have hcall := ih hS allNodes_nil
    simpa [Phrase.earlier, Expr.nodes, Node.parsed_iff, Node.names, Node.Formed, h.isList]
      using ⟨he, hcall⟩
  | newBare h hn ht hp ih =>
    intro hS _
    have hS₁ := h.genuine hS
    have hname : Node.Parsed d (.expr (.symbol _)) :=
      ⟨by simpa [Node.names] using hn.isName hS₁, trivial⟩
    exact allNodes_cons.2 ⟨⟨by simp [Node.names], fun _ => ht.isSymbolPath⟩,
      ih (hn.genuine hS₁) (allNodes_cons.2 ⟨hname, allNodes_nil⟩)⟩
  | newCall h hn ht ha hx ih iha ihx =>
    intro hS _
    have hS₁ := h.genuine hS
    have hS₂ := hn.genuine hS₁
    have hname : Node.Parsed d (.expr (.symbol _)) :=
      ⟨by simpa [Node.names] using hn.isName hS₁, trivial⟩
    have htarget := ih hS₂ (allNodes_cons.2 ⟨hname, allNodes_nil⟩)
    have hargs := iha (ht.genuine hS₂) allNodes_nil
    have hnew : Node.Parsed d (.expr (.binary .new _ _)) :=
      ⟨by simp [Node.names], fun _ => ⟨ht.isSymbolPath, ha.isList⟩, nofun⟩
    exact ihx (ha.genuine (ht.genuine hS₂))
      (allNodes_cons.2 ⟨hnew, allNodes_append.2 ⟨htarget, hargs⟩⟩)
  | unarySome h hk he ho ih =>
    intro hS _
    have hnew : ∀ {k : TokenKind} {op : UnaryOp}, unaryOp? k = some op → op ≠ .new := by
      rintro k _ hk rfl
      unfold unaryOp? at hk
      split at hk <;> simp at hk
    exact allNodes_cons.2 ⟨⟨by simp [Node.names], fun hop => absurd hop (hnew hk)⟩,
      ih (h.genuine hS) allNodes_nil⟩
  | climbMore h hk hb hl hu hr ho hx ihr ihx =>
    intro hS hl
    refine ihx (hr.genuine (h.genuine hS)) ?_
    have hright := ihr (h.genuine hS) allNodes_nil
    simpa [Phrase.earlier, Expr.nodes, ne_dot_of_infixOp? hk] using
      ⟨Node.parsed_binary (ne_new_of_infixOp? hk) (ne_dot_of_infixOp? hk), hl, hright⟩
  | assignmentSome hl h ht hop ho hr ihl ihr =>
    intro hS _
    have hleft := ihl hS allNodes_nil
    have hright := ihr (h.genuine (hl.genuine hS)) allNodes_nil
    have hnew : ∀ {op : BinaryOp}, op.precedence = .assignment → op ≠ .new := by
      rintro _ hop rfl
      exact absurd hop (by decide)
    simpa [Phrase.nodes, Expr.nodes, ne_dot_of_assignment hop] using
      ⟨Node.parsed_binary (hnew hop) (ne_dot_of_assignment hop), hleft, hright⟩
  | entryShort h hk hc =>
    intro hS _
    exact allNodes_cons.2 ⟨(Node.parsed_entry (Key.genuine_ofToken? hk (h.genuine_token hS))).1,
      allNodes_nil⟩
  | entryPair h hk hc hv ih =>
    intro hS _
    exact allNodes_cons.2 ⟨(Node.parsed_entry (Key.genuine_ofToken? hk (h.genuine_token hS))).2 _,
      ih (hc.genuine (h.genuine hS)) allNodes_nil⟩
  | braceIfElseIf hd h ht hc hb he hi ho iht ihb iho =>
    intro hS _
    have hS₁ := h.genuine hS
    have hS₃ := hc.genuine (ht.genuine hS₁)
    have hS₆ := hi.genuine (he.genuine (hb.genuine hS₃))
    obtain ⟨test, body, other, rfl⟩ := ho.isConditional
    exact allNodes_cons.2 ⟨⟨by simp [Node.names], trivial⟩, allNodes_append.2
      ⟨allNodes_append.2 ⟨iht hS₁ allNodes_nil, ihb hS₃ allNodes_nil⟩, iho hS₆ allNodes_nil⟩⟩
  | blockIfElsif hd ht h hb he ho iht ihb iho =>
    intro hS _
    have hS₂ := h.genuine (ht.genuine hS)
    have hS₄ := he.genuine (hb.genuine hS₂)
    obtain ⟨test, body, other, rfl⟩ := ho.isConditional
    exact allNodes_cons.2 ⟨⟨by simp [Node.names], trivial⟩, allNodes_append.2
      ⟨allNodes_append.2 ⟨iht hS allNodes_nil, ihb hS₂ allNodes_nil⟩, iho hS₄ allNodes_nil⟩⟩
  | exprStatement ho hk he hs ih =>
    intro hS hf
    exact allNodes_cons.2 ⟨⟨by simp [Node.names], he.begins.isAmbiguous ho hf⟩,
      ih hS allNodes_nil⟩
  | statement he ha hf hk hs ih =>
    intro hS _
    exact allNodes_cons.2 ⟨⟨by simp [Node.names], trivial⟩, ih hS hf⟩
  | declarationsEnd h =>
    intro hS _
    exact hS.declare
  | declarationsMore hx hxs ihx ihxs =>
    intro hS _
    have hfirst := ihx hS.flush allNodes_nil
    have hrest := ihxs (hx.genuine hS.flush) allNodes_nil
    simpa [Phrase.nodes, Declaration.nodesOf] using ⟨hS.declare, hfirst, hrest⟩
  | importWhole h ha hn hf hp =>
    intro hS
    have hS₂ := ha.genuine (h.genuine hS)
    exact ⟨hn.isName hS₂, hp.genuine_token (hf.genuine (hn.genuine hS₂))⟩
  | importNames h hn hc hf hp ih =>
    intro hS
    have hS₁ := h.genuine hS
    exact ⟨ih hS₁, hp.genuine_token (hf.genuine (hc.genuine (hn.genuine hS₁)))⟩
  | _ =>
    intro hS
    simp [Phrase.Parsed, Phrase.nodes, Phrase.earlier, Expr.nodes, Expr.nodesOf, Entry.nodesOf,
      Statement.nodes, Declaration.nodes, Node.parsed_iff, Node.names, Node.Formed] at * <;>
    grind only [→ Takes.genuine, → Takes.isName, → Passes.genuine, → Flag.genuine,
      → PassesIf.genuine, → Perhaps.genuine, → Tape.Genuine.flush, → Reads.genuine]

/-! ## Programs -/

/-- A program as it is parsed: its comments and imports are genuine, and its nodes are
`Node.Parsed`. -/
structure Program.Parsed (d : Dialect) (p : Program) : Prop where
  leading : ∀ c ∈ p.leading, c.Genuine d
  moduleName : ∀ m ∈ p.moduleName, IsName d m
  imports : ∀ i ∈ p.imports, i.Genuine d
  nodes : AllNodes (Node.Parsed d) p.nodes

/-- A module line leaves a genuine tape, and the name of the module is a name. -/
theorem ModuleLine.genuine {d : Dialect} {S S' : Tape} {m : Option String}
    (h : ModuleLine d S m S') (hS : S.Genuine d) : S'.Genuine d ∧ ∀ n ∈ m, IsName d n := by
  cases h with
  | none _ => exact ⟨hS, nofun⟩
  | some h hn hs =>
    have hS₁ := h.genuine hS
    refine ⟨hs.genuine (hn.genuine hS₁), fun n hm => ?_⟩
    obtain rfl := Option.mem_some.1 hm
    exact hn.isName hS₁

theorem BeforeImports.genuine {d : Dialect} {S S' : Tape} {cs : List Comment}
    (h : BeforeImports S cs S') (hS : S.Genuine d) :
    S'.Genuine d ∧ ∀ c ∈ cs, c.Genuine d := by
  cases h with
  | taken _ => exact ⟨hS.flush, hS.waiting⟩
  | kept _ => exact ⟨hS, by simp⟩

/-- What `ReadsProgram` derives from a genuine tape is `Program.Parsed`. -/
theorem ReadsProgram.parsed {d : Dialect} {S : Tape} {trailer : Option String} {p : Program}
    (h : ReadsProgram d S trailer p) (hS : S.Genuine d) : p.Parsed d := by
  obtain @⟨S₁, S₂, S₃, S₄, m, cs, is, body, -, hm, hcs, his, hb, -⟩ := h
  have ⟨hS₁, hname⟩ := hm.genuine hS.flush
  have ⟨hS₂, hcomments⟩ := hcs.genuine hS₁
  exact {
    leading := List.forall_mem_append.2 ⟨hS.waiting, hcomments⟩
    moduleName := hname
    imports := his.parsed hS₂
    nodes := hb.parsed (his.genuine hS₂) allNodes_nil }

end Diglot

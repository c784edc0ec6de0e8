import Diglot.Proofs.HandBuilt
import Diglot.Proofs.Lossless
import Mathlib.Data.Nat.Digits.Defs

/-!
# The laws of parsed trees

The types of trees admit more than the grammar does. What holds of the trees that are read from a
text, and what the types do not say, are laws about single nodes: about the names, values and lists
that a node holds, about the expressions right inside it and the places that they have there, and
about the declarations of its body. They are established rule by rule, so they hold at every depth.

- `LexesAlone`, `Literal.Faithful`: the spelling of a literal is one token, and says its value.
- `Literal.wellBuilt_iff`: these two are what it takes to read a literal from its spelling.
- `Expr.MayStand`: which expressions may stand in a place.
- `Separated`: a body in which comments that follow each other are one declaration.
- `Node.Orderly`, `Reads.orderly`: the laws that follow from the rules alone, whatever the tokens.
- `Node.Lawful`, `Program.Lawful`: all laws.
- `lawful_of_parseText`: whatever is read from a text keeps them.
-/

namespace Diglot

open Rules Lexeme

/-! ## Literals -/

/-- With nothing around it a text is one token of a kind, whatever the `file` is called. -/
def LexesAlone (d : Dialect) (text : String) (k : TokenKind) : Prop :=
  ∀ file, ∃ start stop : Loc,
    (Lexer.ofText d file text).tokens = [⟨k, text, start⟩, ⟨.eof, "", stop⟩]

/-- The spelling of a `Literal` says its value. Digits are read from the last one on. -/
def Literal.Faithful : Literal → Prop
  | .boolean value text => value = true ↔ text = "true"
  | .fixnum value text =>
    value = (Nat.ofDigits 10 (text.toList.reverse.map fun c => c.toNat - '0'.toNat) : Nat) ∧
      value ≤ 2 ^ 63 - 1
  | .flonum value text => value = .ofLiteral text
  | .string value text | .regexp value text => value = text

/-- Reading digits from the first one on, as `natOfDigits` does, gives the same number. -/
theorem Decimal.natOfDigits_eq_ofDigits (cs : List Char) :
    natOfDigits cs = Nat.ofDigits 10 (cs.reverse.map fun c => c.toNat - '0'.toNat) := by
  rw [natOfDigits, Nat.ofDigits_eq_foldr, List.foldr_map, List.foldr_reverse]
  congr
  funext n c
  exact Nat.add_comm _ _

theorem Literal.faithful_fixnum {text : String}
    (h : Decimal.natOfDigits text.toList ≤ maxFixnum) :
    (Literal.fixnum (Decimal.natOfDigits text.toList) text).Faithful := by
  have hbound : Decimal.natOfDigits text.toList ≤ 2 ^ 63 - 1 := h
  refine ⟨congrArg Int.ofNat (Decimal.natOfDigits_eq_ofDigits _), ?_⟩
  omega

/-- What `classify` finds in the spelling of a literal, with nothing after it. -/
theorem Literal.classify_text {d : Dialect} {v : Literal} (h : Genuine d v.text v.kind) :
    classify d v.text.toList = (v.kind, v.text.length) := by
  rw [← List.append_nil v.text.toList]
  exact Literal.classify_append h trivial

/-- A text in which `classify` finds one token that takes all of it is that token. -/
theorem lexesAlone_of_classify {d : Dialect} {text : String} {k : TokenKind}
    (h : classify d text.toList = (k, text.length)) : LexesAlone d text k := by
  intro file
  have hne : (Lexer.ofText d file text).rest ≠ [] := by
    show text.toList ≠ []
    intro hnil
    have hpos := classify_pos d text.toList
    rw [h, ← String.length_toList, hnil] at hpos
    exact Nat.lt_irrefl 0 hpos
  have hstep := Lexer.scan_step hne
  generalize (Lexer.ofText d file text).scan = r at hstep
  obtain ⟨⟨kind, word, start⟩, l'⟩ := r
  -- the token is as long as the text that it begins
  have hfound : (k, text.length) = (kind, word.length) := h.symm.trans hstep.found
  have hparts : text.toList = word.toList ++ l'.rest := hstep.rest
  obtain ⟨rfl, hlength⟩ := Prod.mk.inj hfound
  have hend : l'.rest = [] := by
    have := congrArg List.length hparts
    simp only [String.length_toList, List.length_append] at this
    exact List.eq_nil_of_length_eq_zero (by omega)
  rw [hend, List.append_nil] at hparts
  obtain rfl := String.toList_inj.1 hparts
  exact ⟨start, l'.loc, (Lexer.Run.cons hstep (.nil l')).tokens hend⟩

theorem Literal.lexesAlone {d : Dialect} {v : Literal} (h : Genuine d v.text v.kind) :
    LexesAlone d v.text v.kind :=
  lexesAlone_of_classify (Literal.classify_text h)

/-- A token that says the value of a literal means it: a literal that is `Faithful` is derived. -/
theorem Literal.Faithful.reads {v : Literal} (h : v.Faithful) (d : Dialect) (S : Tape) :
    Reads d .primary (.token v.kind v.text :: S) (.literal v) S := by
  cases v with
  | boolean value text =>
    obtain rfl : value = (text == "true") := Bool.eq_iff_iff.2 (h.trans beq_iff_eq.symm)
    exact .boolean (.token _ _ _)
  | fixnum value text =>
    obtain ⟨hvalue, hbound⟩ := h
    rw [← Decimal.natOfDigits_eq_ofDigits] at hvalue
    subst hvalue
    exact .fixnum (.token _ _ _) (Int.ofNat_le.1 hbound)
  | flonum value text =>
    obtain rfl : value = .ofLiteral text := h
    exact .flonum (.token _ _ _)
  | string value text =>
    obtain rfl : value = text := h
    exact .string (.token _ _ _)
  | regexp value text =>
    obtain rfl : value = text := h
    exact .regexp (.token _ _ _)

/-- The tape that `cut` gives of a text that is one token of a literal's kind. -/
theorem LexesAlone.tape_eq {d : Dialect} {v : Literal} (h : LexesAlone d v.text v.kind) :
    (cut d v.text.toList).tape = [.token v.kind v.text, .token .eof ""] := by
  obtain ⟨start, stop, htokens⟩ := h exprFile
  have htape := Lexer.tape_reader (Lexer.ofText d exprFile v.text)
  rw [Lexer.reader, htokens] at htape
  cases v <;> exact htape.symm

/-- A literal is `WellBuilt`, that is what its text is read as, exactly if the text is one token
and says its value. -/
theorem Literal.wellBuilt_iff {d : Dialect} {v : Literal} :
    v.WellBuilt d ↔ LexesAlone d v.text v.kind ∧ v.Faithful := by
  constructor
  · intro h
    refine ⟨Literal.lexesAlone h.genuine, ?_⟩
    cases h.reads [] with
    | fixnum _ hr => exact Literal.faithful_fixnum hr
    | boolean _ | flonum _ | string _ | regexp _ => simp [Literal.Faithful]
  · rintro ⟨halone, hfaithful⟩
    have htape := halone.tape_eq
    have hgenuine := (proper_cut d v.text.toList).genuine v.kind v.text (by simp [htape])
    have hprimary := PrimaryAs.literal hgenuine (hfaithful.reads d)
    have hexpr := (hprimary.operandAs fun _ => Nat.le_refl _).assignsAs.sequencesAs.exprAs
    refine parseExpr_of_reads ?_
    rw [htape]
    exact hexpr.reads [.token .eof ""] rfl (show TokenKind.eof ≠ .punct .comma by decide)

/-- The literals that a node is or holds itself, a string that is a `Key` among them. -/
def Node.literals : Node → List Literal
  | .expr (.literal value) => [value]
  | .entry (.shorthand (.string value text)) | .entry (.pair (.string value text) _) =>
    [.string value text]
  | _ => []

/-! ## Places -/

/-- Whether an expression may stand in a `Place`. Assignments are joined by commas only where a
`sequence` may stand, and a list that could be taken for an expression in parentheses stands
only after a callee. -/
def Expr.MayStand (place : Place) : Expr → Prop
  | .binary .comma _ _ => place = .sequence
  | .list es trailingComma => place = .arguments ∨ 2 ≤ es.length ∨ trailingComma = true
  | _ => True

/-- The expressions right inside a node, each with its `Place`. -/
def Node.operands : Node → List (Place × Expr)
  | .expr (.grouping inner) => [(.operand, inner)]
  | .expr (.unary _ operand) | .expr (.step _ operand) => [(.operand, operand)]
  | .expr (.binary op left right) => [(op.leftPlace, left), (op.rightPlace, right)]
  | .expr (.ternary test yes no) => [(.operand, test), (.operand, yes), (.operand, no)]
  | .expr (.call callee arguments) => [(.operand, callee), (.arguments, arguments)]
  | .expr (.index target position) => [(.operand, target), (.sequence, position)]
  | .expr (.list es _) | .expr (.array es) => es.map (Place.operand, ·)
  | .expr (.arrow _ body) => [(.operand, body)]
  | .entry (.pair _ value) => [(.operand, value)]
  | .statement (.ifThen test _ _) | .statement (.whileLoop test _) => [(.sequence, test)]
  | .statement (.forLoop _ _ collection _ _) => [(.sequence, collection)]
  | .statement (.throw value) | .statement (.ret (some value)) | .statement (.expr value) =>
    [(.sequence, value)]
  | .declaration (.var _ _ (some value) _) | .declaration (.vars _ _ value _) =>
    [(.operand, value)]
  | _ => []

/-! ## Bodies -/

/-- Whether a declaration is a group of comments. -/
def Declaration.isComments : Declaration → Bool
  | .comments _ => true
  | _ => false

/-- No two groups of comments, `Declaration.comments`, stand next to each other. -/
def Separated (body : Block) : Prop :=
  body.IsChain fun x y => ¬(x.isComments = true ∧ y.isComments = true)

/-- The declarations right inside a node. Every `Block` of a tree is one of these or the body of
the file. -/
def Node.bodies : Node → List Block
  | .expr (.function _ _ body) | .expr (.arrowBlock _ body) => [body]
  | .statement (.ifThen _ body _) | .statement (.whileLoop _ body) => [body]
  | .statement (.forLoop _ _ _ body _) | .statement (.block body) => [body]
  | .declaration (.function _ _ body _ _) => [body]
  | _ => []

theorem Separated.cons {x : Declaration} {xs : Block} (hx : x.isComments = false)
    (hxs : Separated xs) : Separated (x :: xs) :=
  List.isChain_cons.2 ⟨fun _ _ h => by simp [hx] at h, hxs⟩

/-- `Comment.declare` may stand before a declaration that is no group of comments. -/
theorem Separated.declare_append {x : Declaration} {xs : Block} (cs : List Comment)
    (hx : x.isComments = false) (hxs : Separated xs) :
    Separated (Comment.declare cs ++ x :: xs) := by
  cases cs with
  | nil => exact hxs.cons hx
  | cons c cs => exact List.isChain_cons_cons.2 ⟨fun h => by simp [hx] at h, hxs.cons hx⟩

theorem separated_declare (cs : List Comment) : Separated (Comment.declare cs) := by
  cases cs with
  | nil => exact .nil
  | cons c cs => exact .singleton _

/-! ## Nodes in order -/

/-- What a node asks of the names, elements and comments that it holds itself. -/
def Node.Filled : Node → Prop
  | .expr (.list es trailingComma) => trailingComma = true → es ≠ []
  | .statement (.forLoop _ names _ _ _) | .declaration (.vars _ names _ _) => names ≠ []
  | .declaration (.comments cs) => cs ≠ []
  | _ => True

/-- A node that is `Filled` and has literals that are `Faithful`, with each expression in a
place for it, and bodies in which comments are `Separated`. -/
structure Node.Orderly (n : Node) : Prop where
  filled : n.Filled
  faithful : ∀ v ∈ n.literals, v.Faithful
  placed : ∀ x ∈ n.operands, x.2.MayStand x.1
  separated : ∀ body ∈ n.bodies, Separated body

theorem Node.orderly_iff {n : Node} :
    n.Orderly ↔ n.Filled ∧ (∀ v ∈ n.literals, v.Faithful) ∧
      (∀ x ∈ n.operands, x.2.MayStand x.1) ∧ ∀ body ∈ n.bodies, Separated body :=
  ⟨fun h => ⟨h.filled, h.faithful, h.placed, h.separated⟩,
    fun h => ⟨h.1, h.2.1, h.2.2.1, h.2.2.2⟩⟩

theorem Expr.allOrderly_nodesOf {es : List Expr} :
    AllNodes Node.Orderly (Expr.nodesOf es) ↔ ∀ e ∈ es, AllNodes Node.Orderly e.nodes := by
  induction es with
  | nil => simp [Expr.nodesOf]
  | cons e es ih => simp [Expr.nodesOf, ih]

theorem allOrderly_declare (cs : List Comment) :
    AllNodes Node.Orderly (Declaration.nodesOf (Comment.declare cs)) := by
  cases cs with
  | nil => simp [Comment.declare, Declaration.nodesOf]
  | cons c cs =>
    simp [Comment.declare, Declaration.nodesOf, Declaration.nodes, Node.orderly_iff, Node.Filled,
      Node.literals, Node.operands, Node.bodies]

/-- An expression with its nodes `Orderly`, which may stand in a place. -/
structure Expr.OrderlyAt (place : Place) (e : Expr) : Prop where
  nodes : AllNodes Node.Orderly e.nodes
  stands : e.MayStand place

theorem Expr.orderlyAt_iff {place : Place} {e : Expr} :
    e.OrderlyAt place ↔ AllNodes Node.Orderly e.nodes ∧ e.MayStand place :=
  ⟨fun h => ⟨h.nodes, h.stands⟩, fun h => ⟨h.1, h.2⟩⟩

namespace Expr.OrderlyAt

variable {place : Place} {e l r : Expr} {es : List Expr} {comma : Bool}

/-- What may be an `operand` may be a `sequence` of one. -/
theorem sequence (h : e.OrderlyAt .operand) : e.OrderlyAt .sequence := by
  refine ⟨h.nodes, ?_⟩
  have hstands := h.stands
  unfold MayStand at hstands ⊢
  split <;> simp_all

theorem symbol (name : String) : (Expr.symbol name).OrderlyAt .operand where
  nodes := allNodes_cons.2 ⟨⟨trivial, nofun, nofun, nofun⟩, allNodes_nil⟩
  stands := trivial

theorem literal {v : Literal} (h : v.Faithful) : (Expr.literal v).OrderlyAt .operand where
  nodes := allNodes_cons.2 ⟨⟨trivial, by simpa [Node.literals] using h, nofun, nofun⟩,
    allNodes_nil⟩
  stands := trivial

theorem grouping (h : e.OrderlyAt .operand) : (Expr.grouping e).OrderlyAt .operand where
  nodes := allNodes_cons.2 ⟨⟨trivial, nofun, by simpa [Node.operands] using h.stands, nofun⟩,
    h.nodes⟩
  stands := trivial

theorem unary {op : UnaryOp} (h : e.OrderlyAt .operand) :
    (Expr.unary op e).OrderlyAt .operand where
  nodes := allNodes_cons.2 ⟨⟨trivial, nofun, by simpa [Node.operands] using h.stands, nofun⟩,
    h.nodes⟩
  stands := trivial

/-- Elements that are `OrderlyAt` their places make a list that is. The constructors below go
the same way. -/
theorem list (h : ∀ e ∈ es, e.OrderlyAt .operand) (hcomma : comma = true → es ≠ []) :
    (Expr.list es comma).OrderlyAt .arguments where
  nodes := by
    refine allNodes_cons.2 ⟨⟨hcomma, nofun, ?_, nofun⟩, ?_⟩
    · simpa [Node.operands] using fun e he => (h e he).stands
    · exact allOrderly_nodesOf.2 fun e he => (h e he).nodes
  stands := .inl rfl

theorem array (h : ∀ e ∈ es, e.OrderlyAt .operand) : (Expr.array es).OrderlyAt .operand where
  nodes := by
    refine allNodes_cons.2 ⟨⟨trivial, nofun, ?_, nofun⟩, ?_⟩
    · simpa [Node.operands] using fun e he => (h e he).stands
    · exact allOrderly_nodesOf.2 fun e he => (h e he).nodes
  stands := trivial

/-- The elements of a list, wherever it stands, may stand as an `operand`. -/
theorem element (h : (Expr.list es comma).OrderlyAt place) : ∀ e ∈ es, e.OrderlyAt .operand := by
  intro e he
  obtain ⟨hlist, hes⟩ := allNodes_cons.1 h.nodes
  exact ⟨allOrderly_nodesOf.1 hes e he,
    hlist.placed (.operand, e) (by simpa [Node.operands] using he)⟩

/-- Operators join what may stand on their sides, `leftPlace` and `rightPlace`. -/
theorem binary {op : BinaryOp} (hl : l.OrderlyAt op.leftPlace) (hr : r.OrderlyAt op.rightPlace)
    (hplace : op = .comma → place = .sequence) : (Expr.binary op l r).OrderlyAt place where
  nodes := by
    refine allNodes_cons.2 ⟨⟨trivial, nofun, ?_, nofun⟩, allNodes_append.2 ⟨hl.nodes, ?_⟩⟩
    · simpa [Node.operands] using ⟨hl.stands, hr.stands⟩
    · split
      · exact allNodes_nil
      · exact hr.nodes
  stands := by
    unfold MayStand
    split
    · next h => exact hplace (Expr.binary.inj h).1
    · next h => cases h
    · trivial

theorem dot (h : e.OrderlyAt .operand) (name : String) :
    (Expr.binary .dot e (.symbol name)).OrderlyAt .operand :=
  binary h (symbol name) nofun

end Expr.OrderlyAt

/-! ## Rule by rule -/

/-- What the rules make sure of, phrase by phrase. Going on from an expression, as `memberFrom`
does, keeps it in order. -/
def Phrase.Orderly : (φ : Phrase) → φ.Out → Prop
  | .arguments, e => e.OrderlyAt .arguments
  | .primary, e | .member, e | .step, e | .unary, e | .climb _, e | .assignment, e =>
    e.OrderlyAt .operand
  | .expr, e => e.OrderlyAt .sequence
  | .pathFrom l, e | .memberFrom l, e | .climbFrom _ l, e =>
    l.OrderlyAt .operand → e.OrderlyAt .operand
  | .sequenceFrom l, e => l.OrderlyAt .sequence → e.OrderlyAt .sequence
  | .elements _ afterComma, (es, comma) =>
    (∀ e ∈ es, e.OrderlyAt .operand) ∧ (comma = true → afterComma = true ∨ es ≠ [])
  | .loopHeader, (_, ns, _, e) => ns ≠ [] ∧ e.OrderlyAt .sequence
  | .declaration, x => AllNodes Node.Orderly x.nodes ∧ x.isComments = false
  | .block, body | .declarations, body =>
    AllNodes Node.Orderly (Declaration.nodesOf body) ∧ Separated body
  | φ, a => AllNodes Node.Orderly (φ.nodes a)

/-- An operator that is climbed over has operands on both sides, and is no comma. -/
theorem places_of_infixOp? {k : TokenKind} {op : BinaryOp} (h : infixOp? k = some op) :
    op.leftPlace = .operand ∧ op.rightPlace = .operand ∧ op ≠ .comma := by
  unfold infixOp? at h
  split at h <;> cases h <;> decide

theorem places_of_assignment {op : BinaryOp} (h : op.precedence = .assignment) :
    op.leftPlace = .operand ∧ op.rightPlace = .operand ∧ op ≠ .comma := by
  cases op <;> revert h <;> decide

/-- The entries with a key that is one token are `Orderly`, as is the pair with a value that may
stand there. -/
theorem Node.orderly_entry {k : TokenKind} {text : String} {key : Key}
    (h : Key.ofToken? text k = some key) :
    Node.Orderly (.entry (.shorthand key)) ∧
      ∀ value : Expr, value.MayStand .operand → Node.Orderly (.entry (.pair key value)) := by
  cases k <;> cases h <;>
    simp [Node.orderly_iff, Node.Filled, Node.literals, Node.operands, Node.bodies,
      Literal.Faithful]

/-- Whatever is read is `Orderly`, by induction on the derivation. -/
theorem Reads.orderly {d : Dialect} {φ : Phrase} {S S' : Tape} {a : φ.Out}
    (h : Reads d φ S a S') : φ.Orderly a := by
  induction h with
  | arguments _ _ _ ih => exact .list ih.1 fun hcomma => by simpa using ih.2 hcomma
  | symbol _ => exact .symbol _
  | fixnum _ hr => exact .literal (Literal.faithful_fixnum hr)
  | boolean _ | flonum _ | string _ | regexp _ => exact .literal (by simp [Literal.Faithful])
  | array _ _ _ ih => exact .array ih.1
  | grouping _ _ ih => exact .grouping (ih.element _ (List.mem_singleton_self _))
  | @list _ _ es comma _ _ hne htwo ih =>
    refine ⟨ih.nodes, .inr ?_⟩
    rcases es with _ | ⟨e, _ | ⟨e', es⟩⟩
    · exact absurd rfl hne
    · exact .inr (htwo e rfl)
    · exact .inl (by simp)
  | pathEnd _ | memberEnd _ | climbEnd _ | sequenceEnd _ => exact id
  | pathMore _ _ _ _ ih | memberDot _ _ _ _ _ ih => exact fun he => ih (he.dot _)
  | newBare _ _ _ _ ih => exact .unary (ih (.symbol _))
  | newCall _ _ _ _ _ iht iha ihx => exact ihx (.binary (iht (.symbol _)) iha (by simp))
  | unarySome _ _ _ _ ih => exact .unary ih
  | climbMore _ hk _ _ _ _ _ _ ihr ihx =>
    intro hl
    obtain ⟨hleft, hright, hcomma⟩ := places_of_infixOp? hk
    exact ihx (.binary (by rwa [hleft]) (by rwa [hright]) fun h => absurd h hcomma)
  | assignmentSome _ _ _ hop _ _ ihl ihr =>
    obtain ⟨hleft, hright, hcomma⟩ := places_of_assignment hop
    exact .binary (by rwa [hleft]) (by rwa [hright]) fun h => absurd h hcomma
  | sequenceMore _ _ _ ihr ihx => exact fun hl => ihx (.binary hl ihr fun _ => rfl)
  | expr _ _ ih ihx => exact ihx ih.sequence
  | entryShort _ hk _ => exact allNodes_cons.2 ⟨(Node.orderly_entry hk).1, allNodes_nil⟩
  | entryPair _ hk _ _ ih =>
    exact allNodes_cons.2 ⟨(Node.orderly_entry hk).2 _ ih.stands, ih.nodes⟩
  | declarationsEnd _ => exact ⟨allOrderly_declare _, separated_declare _⟩
  | declarationsMore _ _ ihx ihxs =>
    refine ⟨?_, ihxs.2.declare_append _ ihx.2⟩
    simpa [Declaration.nodesOf] using ⟨allOrderly_declare _, ihx.1, ihxs.1⟩
  -- in the other rules each part is read as what its place asks for
  | _ =>
    simp_all [Phrase.Orderly, Phrase.nodes, Expr.orderlyAt_iff, Expr.MayStand, Expr.nodes,
      Entry.nodesOf, Statement.nodes, Declaration.nodes, Declaration.isComments,
      Node.orderly_iff, Node.Filled, Node.literals, Node.operands, Node.bodies]

/-! ## The laws -/

/-- A node as it stands in a parsed tree: `Orderly`, of the form that printing asks for, and
with literals that are read alone as what they are. -/
structure Node.Lawful (d : Dialect) (n : Node) : Prop extends n.Orderly where
  printable : n.Printable
  lexesAlone : ∀ v ∈ n.literals, LexesAlone d v.text v.kind

/-- A parsed program. Its names are those that its dialect leaves free, as `IsName` says. -/
structure Program.Lawful (d : Dialect) (p : Program) : Prop where
  names : ∀ name ∈ p.names, IsName d name
  separated : Separated p.body
  nodes : ∀ n ∈ p.nodes, n.Lawful d

/-- The literals of a node that is `Formed` are one token each. -/
theorem Node.Formed.lexesAlone {d : Dialect} {n : Node} (h : n.Formed d) :
    ∀ v ∈ n.literals, LexesAlone d v.text v.kind := by
  intro v hv
  refine Literal.lexesAlone ?_
  unfold Node.literals at hv
  split at hv
  case h_4 => cases hv
  all_goals
    obtain rfl := List.mem_singleton.1 hv
    exact h

/-- `Reads.orderly` for a whole file. -/
theorem ReadsProgram.orderly {d : Dialect} {S : Tape} {trailer : Option String} {p : Program}
    (h : ReadsProgram d S trailer p) : AllNodes Node.Orderly p.nodes ∧ Separated p.body := by
  obtain ⟨-, -, -, -, hb, -⟩ := h
  exact hb.orderly

/-- The names of a parsed program, that of its module among them, are `IsName`. -/
theorem Program.Parsed.isName {d : Dialect} {p : Program} (h : p.Parsed d) :
    ∀ name ∈ p.names, IsName d name := by
  simp only [Program.names, List.mem_append, Option.mem_toList, List.mem_flatMap]
  rintro name ((hname | ⟨i, hi, hname⟩) | ⟨n, hn, hname⟩)
  · exact h.moduleName name hname
  · have himport := h.imports i hi
    cases i with
    | names ns path => exact himport.1 name hname
    | whole whole path =>
      obtain rfl := List.mem_singleton.1 hname
      exact himport.1
  · exact (h.nodes n hn).names name hname

/-- **Parsed programs keep the laws**, at every depth, whatever text they are read from. -/
theorem lawful_of_parseText {d : Dialect} {file text : String} {p : Program}
    (h : parseText d file text = .ok (some p)) : p.Lawful d := by
  have hparsed := (parsed_of_parseText h).1
  have ⟨horderly, hseparated⟩ := (reads_of_parseText h).orderly
  exact {
    names := hparsed.isName
    separated := hseparated
    nodes := fun n hn => {
      toOrderly := horderly n hn
      printable := (hparsed.nodes n hn).formed.printable
      lexesAlone := (hparsed.nodes n hn).formed.lexesAlone } }

/-- Commas that join assignments in a test, an index and a value to return, a list with a trailing
comma, and a body of comments alone. -/
theorem lawful_of_parseText_branch :
    ∃ p, parseText .brace "a"
        "if (a, b) \x7b // c\n \x7d else \x7b return m[i, j], (1, 'a',); \x7d" = .ok (some p) ∧
      p.Lawful .brace := by
  have hsome : (parseText .brace "a"
      "if (a, b) \x7b // c\n \x7d else \x7b return m[i, j], (1, 'a',); \x7d").toOption.join.isSome =
        true := by
    rw [parseText, parse, Lexer.run, Lexer.tokens_ofText]
    decide +kernel
  obtain ⟨p, hp⟩ := Option.isSome_iff_exists.1 hsome
  have hparse := eq_ok_of_toOption (Option.join_eq_some_iff.1 hp)
  exact ⟨p, hparse, lawful_of_parseText hparse⟩

end Diglot

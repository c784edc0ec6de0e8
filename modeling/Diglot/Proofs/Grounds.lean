import Diglot.Proofs.Standalone
import Mathlib.Data.List.Chain

/-!
# Complaints are about tokens of the text

A complaint names a token: the one the reader stands at, or one that it has gone past and that the
rule has kept, an operator, an arrow or the word `export`. All of them are tokens of the text. So
the rules are followed with the tokens that they can come by: whatever the reader has before it, and
whatever it gives, is a token of the text, and therefore so is the token of every complaint.

- `Silent`: a text without the words in which a message comes to the token it is about.
- `Expectation.silent_wording`, `Complaint.silent_wording`: how complaints are worded up to there.
- `Parser.GroundedTo`, `Grammar.Grounded`: parsers that complain about given tokens alone.
- `Grammar.grounded_ofDepth`: the grammar does.
- `complaint_about_token`: what a syntax error says about a text.
-/

namespace Diglot

open Rules Lexeme

/-! ## Messages -/

/-- A text stands somewhere in another one. -/
def Occurs (part whole : String) : Prop :=
  part.toList <:+: whole.toList

/-- A text in which every `b` comes before another character than `u`, so that the words `but found`
are not in it, nor begin at its end. -/
def Silent (s : String) : Prop :=
  s.toList.IsChain (fun a b => ¬(a = 'b' ∧ b = 'u')) ∧ s.toList.getLast? ≠ some 'b'

namespace Silent

variable {s s' : String}

/-- What is to be checked of a text that is given by its characters. -/
theorem ofList {cs : List Char}
    (h : cs.IsChain (fun a b => ¬(a = 'b' ∧ b = 'u')) ∧ cs.getLast? ≠ some 'b') :
    Silent (String.ofList cs) := by
  rwa [Silent, String.toList_ofList]

/-- A `Silent` text does not hold the words `but found`. -/
theorem not_occurs (h : Silent s) : ¬Occurs "but found " s := by
  intro hoccurs
  have hpart := List.IsChain.infix h.1 hoccurs
  exact absurd hpart (by decide)

/-- Two `Silent` texts make another: the first does not end in a `b`, so the words do not arise
between them. -/
theorem append (h : Silent s) (h' : Silent s') : Silent (s ++ s') := by
  rw [Silent, String.toList_append, List.isChain_append, List.getLast?_append]
  refine ⟨⟨h.1, h'.1, fun a ha b _ hab => h.2 (hab.1 ▸ ha)⟩, ?_⟩
  cases hlast : s'.toList.getLast? with
  | none => simpa [hlast] using h.2
  | some c =>
    have hne := h'.2
    rw [hlast] at hne
    simpa using hne

end Silent

/-- No sign has a letter in its `spelling`. -/
theorem Punct.silent_spelling (p : Punct) : Silent p.spelling := by
  cases p <;> exact .ofList (by decide)

/-- No keyword has `bu` in its `spelling`. -/
theorem Keyword.silent_spelling (k : Keyword) : Silent k.spelling := by
  cases k <;> exact .ofList (by decide)

theorem BinaryOp.silent_spelling (op : BinaryOp) : Silent op.spelling := by
  cases op <;> exact .ofList (by decide)

theorem VarKeyword.silent_spelling (keyword : VarKeyword) : Silent keyword.spelling := by
  cases keyword <;> exact .ofList (by decide)

namespace Expectation

/-- The words of an `Expectation` that are not its own but those of the rule. -/
def given : Expectation → String
  | tokenAfter _ context => context
  | phrase words => words
  | _ => ""

/-- The name that `mention` has for a kind of token is `Silent`. -/
theorem silent_mention (k : TokenKind) : Silent (mention k) := by
  cases k with
  | punct p =>
    refine .append (.append ?_ p.silent_spelling) ?_
    all_goals exact .ofList (by decide)
  | keyword k =>
    refine .append (.append ?_ k.silent_spelling) ?_
    all_goals exact .ofList (by decide)
  | _ => exact .ofList (by decide)

theorem silent_phrase (context : BlockContext) : Silent context.phrase := by
  cases context <;> exact .ofList (by decide)

/-- The `wording` of an expectation does not name the token that is there in its stead. -/
theorem silent_wording {what : Expectation} (h : Silent what.given) : Silent what.wording := by
  cases what with
  | token k => exact .append (.ofList (by decide)) (silent_mention k)
  | tokenAfter k context =>
    refine .append (.append (.append (.append ?_ (silent_mention k)) ?_) h) ?_
    all_goals exact .ofList (by decide)
  | commaOr close => exact .append (.ofList (by decide)) (silent_mention close)
  | declarationOr close => exact .append (.ofList (by decide)) (silent_mention close)
  | blockStart opening context =>
    refine .append (.append (.append ?_ (silent_mention opening)) ?_) (silent_phrase context)
    all_goals exact .ofList (by decide)
  | variableName keyword | variableEnd keyword =>
    refine .append (.append ?_ keyword.silent_spelling) ?_
    all_goals exact .ofList (by decide)
  | phrase words => exact h
  | _ => exact .ofList (by decide)

end Expectation

/-- The words of a `Complaint` that are not its own but those of the rule. -/
def Complaint.given : Complaint → String
  | expected what => what.given
  | remark words => words
  | _ => ""

/-- A complaint other than `Complaint.expected` names no token in those words. -/
theorem Complaint.silent_wording {c : Complaint} {t : Token} (h : Silent c.given)
    (hne : ∀ what, c ≠ .expected what) (ht : c = .arrowOperand → Silent t.text) :
    Silent (c.wording t) := by
  cases c with
  | expected what => exact absurd rfl (hne what)
  | arrowOperand =>
    refine .append (.append ?_ (ht rfl)) ?_
    all_goals exact .ofList (by decide +kernel)
  | remark words => exact h
  | _ => exact .ofList (by decide)

/-! ## Parsers that keep to some tokens -/

/-- The kinds of tokens that can be operators: those with a fixed `spelling?`, and assignments. -/
def TokenKind.isSign (k : TokenKind) : Bool :=
  k.spelling?.isSome || k == .assign

/-- A syntax error about one of some tokens, in the grammar's own words; with
`Complaint.arrowOperand` the token is an operator. -/
structure SyntaxError.Grounded (S : Token → Prop) (e : SyntaxError) : Prop where
  token : S e.token
  given : Silent e.complaint.given
  sign : e.complaint = .arrowOperand → e.token.kind.isSign = true

/-- An error that is `SyntaxError.Grounded` if it is a syntax error at all. -/
def Error.Grounded (S : Token → Prop) : Error → Prop
  | .source e => e.Grounded S
  | _ => True

/-- All tokens that a reader has before it are among some tokens. -/
structure Reader.Holds (S : Token → Prop) (r : Reader) : Prop where
  current : S r.current
  ahead : ∀ w ∈ r.ahead, S w.token

/-- Going past a token brings in no other. -/
theorem Reader.Holds.next {S : Token → Prop} {r : Reader} (h : r.Holds S) : r.next.Holds S := by
  unfold Reader.next
  split
  · exact h
  · next w ws hahead =>
    have hw := h.ahead
    rw [hahead, List.forall_mem_cons] at hw
    exact ⟨hw.1, hw.2⟩

namespace Parser

variable {α β : Type} {S : Token → Prop} {P : β → Prop} {Q : α → Prop}

/-- On a reader that `Holds` some tokens, a parser that succeeds gives a result with a property
and leaves a reader of such tokens, and one that fails complains about such a token. -/
def GroundedTo (S : Token → Prop) (Q : α → Prop) (x : Parser α) : Prop :=
  ∀ ⦃r : Reader⦄, r.Holds S →
    match x.run r with
    | .ok (a, r') => Q a ∧ r'.Holds S
    | .error e => e.Grounded S

/-- `GroundedTo` on readers that stand at a token of a kind. -/
def GroundedAt (S : Token → Prop) (k : TokenKind) (Q : α → Prop) (x : Parser α) : Prop :=
  ∀ ⦃r : Reader⦄, r.Holds S → r.current.kind = k →
    match x.run r with
    | .ok (a, r') => Q a ∧ r'.Holds S
    | .error e => e.Grounded S

/-- `GroundedTo` with nothing said about the result. -/
abbrev Grounded (S : Token → Prop) (x : Parser α) : Prop :=
  GroundedTo S (fun _ => True) x

theorem GroundedTo.at {x : Parser α} (h : GroundedTo S Q x) (k : TokenKind) : GroundedAt S k Q x :=
  fun _ hr _ => h hr

theorem GroundedTo.pure {a : α} (h : Q a) : GroundedTo S Q (pure a) :=
  fun _ hr => ⟨h, hr⟩

theorem grounded_pure (a : α) : Grounded S (pure a : Parser α) :=
  .pure trivial

/-- What follows may use what the first parser is known to give. The lemmas about rules are put
together by this one. -/
theorem GroundedTo.bind {x : Parser β} {k : β → Parser α} (hx : GroundedTo S P x)
    (hk : ∀ b, P b → GroundedTo S Q (k b)) : GroundedTo S Q (x >>= k) := by
  intro r hr
  have hxr := hx hr
  rw [StateT.run_bind]
  cases hrun : x.run r with
  | ok p =>
    rw [hrun] at hxr
    exact hk p.1 hxr.1 hxr.2
  | error e =>
    rw [hrun] at hxr
    exact hxr

/-- Whatever a parser gives, what comes after it goes on from there. -/
theorem GroundedTo.andThen {x : Parser β} {k : β → Parser α} (hx : GroundedTo S P x)
    (hk : ∀ b, GroundedTo S Q (k b)) : GroundedTo S Q (x >>= k) :=
  hx.bind fun b _ => hk b

theorem GroundedTo.ite {c : Prop} [Decidable c] {x y : Parser α} (hx : GroundedTo S Q x)
    (hy : GroundedTo S Q y) : GroundedTo S Q (if c then x else y) := by
  split
  · exact hx
  · exact hy

/-- What is done after a look at the `kind` of the current token is done at a token of that
kind. -/
theorem GroundedTo.ofKind {f : TokenKind → Parser α} (h : ∀ k, GroundedAt S k Q (f k)) :
    GroundedTo S Q (kind >>= f) :=
  fun r hr => h r.current.kind hr rfl

/-- After `advance` the token that has been gone past is at hand, with its kind known. -/
theorem GroundedAt.advance {f : Token → Parser α} {k : TokenKind}
    (h : ∀ t, S t → t.kind = k → GroundedTo S Q (f t)) : GroundedAt S k Q (advance >>= f) :=
  fun r hr hk => h r.current hr.current hk hr.next

theorem GroundedAt.current {f : Token → Parser α} {k : TokenKind}
    (h : ∀ t, S t → t.kind = k → GroundedTo S Q (f t)) : GroundedAt S k Q (current >>= f) :=
  fun r hr hk => h r.current hr.current hk hr

theorem grounded_kind : Grounded S kind :=
  fun _ hr => ⟨trivial, hr⟩

/-- `current` gives one of the tokens, which a rule may keep for a complaint. -/
theorem groundedTo_current : GroundedTo S S current :=
  fun _ hr => ⟨hr.current, hr⟩

theorem grounded_is (k : TokenKind) : Grounded S (is k) :=
  fun _ hr => ⟨trivial, hr⟩

/-- So does `advance`. -/
theorem groundedTo_advance : GroundedTo S S advance :=
  fun _ hr => ⟨hr.current, hr.next⟩

theorem grounded_takeComments : Grounded S takeComments :=
  fun _ hr => ⟨trivial, hr.current, hr.ahead⟩

theorem grounded_exhausted : GroundedTo S Q (.exhausted : Parser α) :=
  fun _ _ => trivial

theorem grounded_build (x : Except Defect α) : Grounded S (build x) := by
  cases x with
  | ok a => exact grounded_pure a
  | error e => exact fun _ _ => trivial

/-- `complain` is about the token that it is given, in `Silent` words of the rule. -/
theorem GroundedTo.complain {t : Token} {c : Complaint} (ht : S t) (hgiven : Silent c.given)
    (hsign : c = .arrowOperand → t.kind.isSign = true) :
    GroundedTo S Q (complain t c : Parser α) :=
  fun _ _ => ⟨ht, hgiven, hsign⟩

/-- `unexpected` is about the token at hand. -/
theorem GroundedTo.unexpected {what : Expectation} (h : Silent what.given) :
    GroundedTo S Q (unexpected what : Parser α) :=
  groundedTo_current.bind fun _ ht => .complain ht h (by simp)

theorem grounded_take (k : TokenKind) : Grounded S (take k) :=
  (grounded_is k).andThen fun _ =>
    .ite (groundedTo_advance.andThen fun _ => grounded_pure _) (grounded_pure _)

/-- `consume` complains about the token at hand, or goes past it. -/
theorem GroundedTo.consume {k : TokenKind} {what : Expectation} {f : Token → Parser α}
    (h : Silent what.given) (hf : ∀ t, GroundedTo S Q (f t)) :
    GroundedTo S Q (consume k what >>= f) :=
  GroundedTo.andThen ((grounded_is k).andThen fun _ => .ite groundedTo_advance (.unexpected h)) hf

end Parser

open Diglot.Parser

/-- The parsers of a `Grammar` complain about some tokens alone. -/
structure Grammar.Grounded (S : Token → Prop) (g : Grammar) : Prop where
  expr : g.expr.Grounded S
  sequenceFrom : ∀ e, (g.sequenceFrom e).Grounded S
  assignment : g.assignment.Grounded S
  climb : ∀ b, (g.climb b).Grounded S
  climbFrom : ∀ b e, (g.climbFrom b e).Grounded S
  unary : g.unary.Grounded S
  memberFrom : ∀ e, (g.memberFrom e).Grounded S
  pathFrom : ∀ e, (g.pathFrom e).Grounded S
  elements : ∀ k b, (g.elements k b).Grounded S
  entries : g.entries.Grounded S
  names : g.names.Grounded S
  declarations : g.declarations.Grounded S
  conditional : g.conditional.Grounded S
  imports : g.imports.Grounded S

/-- Where the depth is used up there is no complaint about a token at all. -/
theorem Grammar.grounded_exhausted (S : Token → Prop) : Grammar.exhausted.Grounded S where
  expr := Parser.grounded_exhausted
  sequenceFrom _ := Parser.grounded_exhausted
  assignment := Parser.grounded_exhausted
  climb _ := Parser.grounded_exhausted
  climbFrom _ _ := Parser.grounded_exhausted
  unary := Parser.grounded_exhausted
  memberFrom _ := Parser.grounded_exhausted
  pathFrom _ := Parser.grounded_exhausted
  elements _ _ := Parser.grounded_exhausted
  entries := Parser.grounded_exhausted
  names := Parser.grounded_exhausted
  declarations := Parser.grounded_exhausted
  conditional := Parser.grounded_exhausted
  imports := Parser.grounded_exhausted

/-! ## Rules -/

/-- What `unaryOp?` reads as an operator is a sign; `stepOp?` and `infixOp?` likewise. -/
theorem TokenKind.isSign_of_unaryOp? {k : TokenKind} {op : UnaryOp} (h : unaryOp? k = some op) :
    k.isSign = true := by
  unfold unaryOp? at h
  split at h
  all_goals first | rfl | cases h

theorem TokenKind.isSign_of_stepOp? {k : TokenKind} {op : StepOp} (h : stepOp? k = some op) :
    k.isSign = true := by
  unfold stepOp? at h
  split at h
  all_goals first | rfl | cases h

theorem TokenKind.isSign_of_infixOp? {k : TokenKind} {op : BinaryOp} (h : infixOp? k = some op) :
    k.isSign = true := by
  unfold infixOp? at h
  split at h
  all_goals first | rfl | cases h

namespace Rules

variable {S : Token → Prop} {d : Dialect} {g : Grammar}

/-- The words that a rule has no need to add. -/
theorem silent_empty : Silent "" :=
  .ofList (by decide)

/-! ### Operands -/

theorem grounded_names (hg : g.Grounded S) : (names g).Grounded S := by
  refine (grounded_is _).andThen fun named => .ite ?_ (grounded_pure _)
  refine groundedTo_advance.andThen fun name => (grounded_take _).andThen fun more => ?_
  exact .ite (hg.names.andThen fun _ => grounded_pure _) (grounded_pure _)

theorem grounded_block (hg : g.Grounded S) (context : BlockContext) :
    (block d g context).Grounded S := by
  refine .consume silent_empty fun _ => hg.declarations.andThen fun body => ?_
  exact .consume silent_empty fun _ => grounded_pure _

theorem grounded_signature (hg : g.Grounded S) : (signature g).Grounded S := by
  refine .consume silent_empty fun _ => hg.names.andThen fun params => ?_
  exact .consume silent_empty fun _ => grounded_pure _

/-- The complaint of `operand` is about the operator, which has been kept for it. -/
theorem grounded_operand {t : Token} (ht : S t) (hsign : t.kind.isSign = true) (e : Expr) :
    (operand t e).Grounded S :=
  .ite (.complain ht silent_empty fun _ => hsign) (grounded_pure _)

/-- `memberName` takes any word, and complains about the token at hand. -/
theorem grounded_memberName : memberName.Grounded S := by
  refine grounded_kind.andThen fun k => .ite ?_ (.unexpected (.ofList (by decide)))
  exact groundedTo_advance.andThen fun _ => grounded_pure _

theorem grounded_arguments (hg : g.Grounded S) : (arguments g).Grounded S := by
  refine .consume silent_empty fun _ => (hg.elements _ _).andThen fun es => ?_
  exact .consume silent_empty fun _ => grounded_pure _

/-- The complaint of `arrowParams` about parameters that are no names is about the arrow. -/
theorem grounded_arrowParams {t : Token} (ht : S t) (es : List Expr) :
    (arrowParams t es).Grounded S := by
  induction es with
  | nil => exact grounded_pure _
  | cons e es ih =>
    cases e with
    | symbol name => exact ih.andThen fun _ => grounded_pure _
    | _ => exact .complain ht silent_empty (by simp)

theorem grounded_arrow (hg : g.Grounded S) (es : List Expr) : (arrow d g es).Grounded S := by
  refine groundedTo_advance.bind fun t ht => (grounded_arrowParams ht es).andThen fun params => ?_
  refine (grounded_is _).andThen fun isBlock => .ite ?_ ?_
  · exact (grounded_block hg _).andThen fun _ => grounded_pure _
  · exact hg.assignment.andThen fun _ => grounded_pure _

/-- In `parenthesized` only what is missing between and after the elements is complained about. -/
theorem grounded_parenthesized (hg : g.Grounded S) : (parenthesized d g).Grounded S := by
  refine groundedTo_advance.andThen fun _ => (hg.elements _ _).andThen fun (es, comma) => ?_
  refine .consume silent_empty fun _ => (grounded_is _).andThen fun isArrow => ?_
  refine .ite (grounded_arrow hg es) ?_
  split
  · exact .unexpected (.ofList (by decide))
  · exact grounded_pure _
  · exact grounded_pure _

theorem grounded_object (hg : g.Grounded S) : (object g).Grounded S := by
  refine groundedTo_advance.andThen fun _ => hg.entries.andThen fun es => ?_
  exact .consume silent_empty fun _ => grounded_pure _

theorem grounded_array (hg : g.Grounded S) : (array g).Grounded S := by
  refine groundedTo_advance.andThen fun _ => (hg.elements _ _).andThen fun es => ?_
  exact .consume silent_empty fun _ => grounded_pure _

/-- `functionLiteral` looks for a name or parameters, whichever is there. -/
theorem grounded_functionLiteral (hg : g.Grounded S) : (functionLiteral d g).Grounded S := by
  have hrest (name : Option String) :
      (do
        let params ← signature g
        let body ← block d g .functionBody
        return Expr.function name params body).Grounded S :=
    (grounded_signature hg).andThen fun _ => (grounded_block hg _).andThen fun _ => grounded_pure _
  refine groundedTo_advance.andThen fun _ => (grounded_is _).andThen fun named => ?_
  refine .ite ?_ (hrest none)
  exact groundedTo_advance.andThen fun name => hrest _

theorem grounded_literal (value : Literal) : (literal value).Grounded S :=
  groundedTo_advance.andThen fun _ => grounded_pure _

/-- A number that is too large is complained about at its own token. -/
theorem grounded_fixnum {t : Token} (ht : S t) : (fixnum t).Grounded S :=
  .ite (grounded_literal _) (.complain ht silent_empty (by simp))

/-- Each choice of `primary` is made by the token at hand, and a literal that is refused is
refused at that token. -/
theorem grounded_primary (hg : g.Grounded S) : (primary d g).Grounded S := by
  refine groundedTo_current.bind fun t ht => ?_
  split
  · exact grounded_parenthesized hg
  · exact grounded_object hg
  · exact grounded_array hg
  · exact groundedTo_advance.andThen fun _ => grounded_pure _
  · exact grounded_literal _
  · exact grounded_fixnum ht
  · exact grounded_literal _
  · exact grounded_literal _
  · exact grounded_literal _
  · exact .complain ht silent_empty (by simp)
  · exact .complain ht silent_empty (by simp)
  · exact .ite (grounded_functionLiteral hg) (.unexpected silent_empty)

theorem grounded_pathFrom (hg : g.Grounded S) (e : Expr) : (pathFrom g e).Grounded S := by
  refine (grounded_take _).andThen fun more => .ite ?_ (grounded_pure _)
  refine grounded_memberName.andThen fun name => (grounded_build _).andThen fun path => ?_
  exact hg.pathFrom path

/-- After `new` there is a name at hand or there is a complaint. -/
theorem grounded_construction (hg : g.Grounded S) : (construction g).Grounded S := by
  refine groundedTo_advance.andThen fun _ => ?_
  refine .consume (.ofList (by decide)) fun name => ?_
  refine (grounded_pathFrom hg _).andThen fun target => (grounded_is _).andThen fun called => ?_
  refine .ite ?_ ((grounded_build _).andThen fun _ => grounded_pure _)
  refine (grounded_arguments hg).andThen fun args => ?_
  exact (grounded_build _).andThen fun _ => grounded_pure _

/-- The complaint of `memberFrom` about an arrow function before brackets or a point is about
the token there. -/
theorem grounded_memberFrom (hg : g.Grounded S) (e : Expr) : (memberFrom g e).Grounded S := by
  refine .ofKind fun k => ?_
  split
  · refine .current fun t ht hk => (grounded_operand ht (by rw [hk]; rfl) e).andThen fun value => ?_
    refine (grounded_arguments hg).andThen fun args => (grounded_build _).andThen fun call => ?_
    exact hg.memberFrom call
  · refine .advance fun t ht hk => (grounded_operand ht (by rw [hk]; rfl) e).andThen fun value => ?_
    refine hg.expr.andThen fun position => ?_
    exact .consume silent_empty fun _ => hg.memberFrom _
  · refine .advance fun t ht hk => (grounded_operand ht (by rw [hk]; rfl) e).andThen fun value => ?_
    refine grounded_memberName.andThen fun name => (grounded_build _).andThen fun path => ?_
    exact hg.memberFrom path
  · exact (grounded_pure _).at k

theorem grounded_member (hg : g.Grounded S) : (member d g).Grounded S := by
  refine (grounded_is _).andThen fun isNew => .ite ?_ ?_
  · refine (grounded_construction hg).andThen fun (value, bare) => ?_
    exact .ite (grounded_pure _) (grounded_memberFrom hg value)
  · exact (grounded_primary hg).andThen fun value => grounded_memberFrom hg value

/-! ### Operators -/

/-- `step` keeps the operator for the case that its operand is an arrow function. -/
theorem grounded_step (hg : g.Grounded S) : (step d g).Grounded S := by
  refine (grounded_member hg).andThen fun value => .ofKind fun k => ?_
  split
  · next op hop =>
    refine .advance fun t ht hk => ?_
    have hsign : t.kind.isSign = true := hk ▸ TokenKind.isSign_of_stepOp? hop
    exact (grounded_operand ht hsign value).andThen fun _ => grounded_pure _
  · exact (grounded_pure _).at k

/-- So does `unary`. -/
theorem grounded_unary (hg : g.Grounded S) : (unary d g).Grounded S := by
  refine .ofKind fun k => ?_
  split
  · next op hop =>
    refine .advance fun t ht hk => hg.unary.andThen fun e => ?_
    have hsign : t.kind.isSign = true := hk ▸ TokenKind.isSign_of_unaryOp? hop
    exact (grounded_operand ht hsign e).andThen fun _ => grounded_build _
  · exact (grounded_step hg).at k

/-- So does `climbFrom`, on both sides of the operator. -/
theorem grounded_climbFrom (hg : g.Grounded S) (bound : Precedence) (left : Expr) :
    (climbFrom g bound left).Grounded S := by
  refine .ofKind fun k => ?_
  split
  · exact (grounded_pure _).at k
  · next op hop =>
    split
    · exact (grounded_pure _).at k
    · refine .advance fun t ht hk => ?_
      have hsign : t.kind.isSign = true := hk ▸ TokenKind.isSign_of_infixOp? hop
      refine (grounded_operand ht hsign left).andThen fun left => ?_
      refine .ite (.complain ht silent_empty (by simp)) ((hg.climb _).andThen fun e => ?_)
      refine (grounded_operand ht hsign e).andThen fun right => ?_
      exact (grounded_build _).andThen fun joined => hg.climbFrom bound joined

theorem grounded_climb (hg : g.Grounded S) (bound : Precedence) : (climb d g bound).Grounded S :=
  (grounded_unary hg).andThen fun left => grounded_climbFrom hg bound left

/-- So does `assignment`, for the sign of a ternary or of an assignment. -/
theorem grounded_assignment (hg : g.Grounded S) : (assignment d g).Grounded S := by
  refine (grounded_climb hg _).andThen fun left => .ofKind fun k => ?_
  split
  · refine .advance fun t ht hk => (grounded_build _).andThen fun op => ?_
    refine (grounded_operand ht (by rw [hk]; rfl) left).andThen fun left => ?_
    exact hg.assignment.andThen fun right => grounded_build _
  · refine .advance fun t ht hk => ?_
    refine (grounded_operand ht (by rw [hk]; rfl) left).andThen fun test => ?_
    refine hg.assignment.andThen fun yes => ?_
    refine .consume (.ofList (by decide)) fun _ => ?_
    exact hg.assignment.andThen fun no => grounded_pure _
  · exact (grounded_pure _).at k

theorem grounded_sequenceFrom (hg : g.Grounded S) (left : Expr) :
    (sequenceFrom g left).Grounded S := by
  refine (grounded_take _).andThen fun more => .ite ?_ (grounded_pure _)
  refine hg.assignment.andThen fun right => (grounded_build _).andThen fun joined => ?_
  exact hg.sequenceFrom joined

theorem grounded_expr (hg : g.Grounded S) : (expr d g).Grounded S :=
  (grounded_assignment hg).andThen fun left => grounded_sequenceFrom hg left

/-! ### Lists -/

/-- `elements` complains through its grammar alone. -/
theorem grounded_elements (hg : g.Grounded S) (close : TokenKind) (afterComma : Bool) :
    (elements d g close afterComma).Grounded S := by
  refine grounded_kind.andThen fun k => .ite (grounded_pure _) ?_
  refine (grounded_assignment hg).andThen fun e => (grounded_take _).andThen fun more => ?_
  exact .ite ((hg.elements _ _).andThen fun _ => grounded_pure _) (grounded_pure _)

/-- `entryKey` takes a name or a string, and complains about anything else at hand. -/
theorem grounded_entryKey : entryKey.Grounded S := by
  refine groundedTo_current.andThen fun t => ?_
  split
  · exact groundedTo_advance.andThen fun _ => grounded_pure _
  · exact grounded_literal _
  · exact .unexpected silent_empty

theorem grounded_entry (hg : g.Grounded S) : (entry d g).Grounded S := by
  refine grounded_entryKey.andThen fun key => (grounded_take _).andThen fun valued => ?_
  exact .ite ((grounded_assignment hg).andThen fun _ => grounded_build _) (grounded_build _)

theorem grounded_entries (hg : g.Grounded S) : (entries d g).Grounded S := by
  refine grounded_kind.andThen fun k => .ite (grounded_pure _) ?_
  refine (grounded_entry hg).andThen fun e => (grounded_take _).andThen fun more => ?_
  exact .ite (hg.entries.andThen fun _ => grounded_pure _) (grounded_pure _)

/-! ### Statements -/

/-- `endStatement` complains about the token that should have ended the statement. -/
theorem grounded_endStatement (what : Expectation) (h : Silent what.given) :
    (endStatement d what).Grounded S := by
  refine (grounded_take _).andThen fun ended => .ite (grounded_pure _) ?_
  exact grounded_kind.andThen fun k => .ite (grounded_pure _) (.unexpected h)

theorem grounded_semicolon : (semicolon d).Grounded S :=
  grounded_endStatement _ silent_empty

theorem grounded_isPlainAssign : isPlainAssign.Grounded S :=
  grounded_kind.andThen fun _ => groundedTo_current.andThen fun _ => grounded_pure _

theorem grounded_someNames (hg : g.Grounded S) : (someNames g).Grounded S :=
  (grounded_names hg).andThen fun _ => .ite (.unexpected silent_empty) (grounded_pure _)

/-- The marks of a conditional in the brace dialect are consumed one by one. -/
theorem grounded_braceConditional (hg : g.Grounded S) : (braceConditional d g).Grounded S := by
  refine .consume (.ofList (by decide)) fun _ => ?_
  refine (grounded_expr hg).andThen fun test => ?_
  refine .consume (.ofList (by decide)) fun _ => ?_
  refine (grounded_block hg _).andThen fun body => (grounded_take _).andThen fun hasOther => ?_
  refine .ite ((grounded_take _).andThen fun isTest => .ite ?_ ?_) (grounded_pure _)
  · exact hg.conditional.andThen fun _ => grounded_pure _
  · exact (grounded_block hg _).andThen fun _ => grounded_pure _

/-- So are its words in the block dialect. -/
theorem grounded_blockConditional (hg : g.Grounded S) : (blockConditional d g).Grounded S := by
  refine (grounded_expr hg).andThen fun test => ?_
  refine .consume (.ofList (by decide)) fun _ => ?_
  refine hg.declarations.andThen fun body => (grounded_take _).andThen fun isTest => .ite ?_ ?_
  · exact hg.conditional.andThen fun _ => grounded_pure _
  · refine (grounded_take _).andThen fun hasOther => .ite ?_ ?_
    · refine hg.declarations.andThen fun other => ?_
      exact .consume silent_empty fun _ => grounded_pure _
    · exact .consume silent_empty fun _ => grounded_pure _

theorem grounded_conditional (hg : g.Grounded S) : (conditional d g).Grounded S := by
  cases d with
  | brace => exact grounded_braceConditional hg
  | block => exact grounded_blockConditional hg

/-- A loop, with a mark or a word before its body. -/
theorem grounded_whileLoop (hg : g.Grounded S) : (whileLoop d g).Grounded S := by
  cases d with
  | brace =>
    refine .consume (.ofList (by decide)) fun _ => ?_
    refine (grounded_expr hg).andThen fun test => ?_
    refine .consume (.ofList (by decide)) fun _ => ?_
    exact (grounded_block hg _).andThen fun _ => grounded_pure _
  | block =>
    refine (grounded_expr hg).andThen fun test => ?_
    exact (grounded_block hg _).andThen fun _ => grounded_pure _

theorem grounded_loopNames (hg : g.Grounded S) (bracketed : Bool) :
    (loopNames g bracketed).Grounded S := by
  refine (grounded_someNames hg).andThen fun names => .ite ?_ (grounded_pure _)
  exact .consume silent_empty fun _ => grounded_pure _

/-- The header of a loop after its keyword, if there is one. -/
theorem grounded_loopHeaderFrom (hg : g.Grounded S) (keyword : Option VarKeyword) :
    (loopHeaderFrom d g keyword).Grounded S := by
  refine (grounded_take _).andThen fun bracketed => (grounded_loopNames hg _).andThen fun ns => ?_
  refine .consume silent_empty fun _ => ?_
  exact (grounded_expr hg).andThen fun _ => grounded_pure _

theorem grounded_loopHeader (hg : g.Grounded S) : (loopHeader d g).Grounded S := by
  rw [loopHeader_eq]
  refine grounded_kind.andThen fun k => .ite ?_ (grounded_loopHeaderFrom hg _)
  exact groundedTo_advance.andThen fun _ => grounded_loopHeaderFrom hg _

/-- A loop over a collection, with its header in parentheses or not. -/
theorem grounded_forLoop (hg : g.Grounded S) : (forLoop d g).Grounded S := by
  cases d with
  | brace =>
    refine .consume (.ofList (by decide)) fun _ => ?_
    refine (grounded_loopHeader hg).andThen fun header => ?_
    refine .consume (.ofList (by decide)) fun _ => ?_
    exact (grounded_block hg _).andThen fun _ => grounded_pure _
  | block =>
    refine (grounded_loopHeader hg).andThen fun header => ?_
    exact (grounded_block hg _).andThen fun _ => grounded_pure _

/-- Each choice of `statement?` begins with a token at hand; where there is none to choose it
gives nothing and complains about nothing. -/
theorem grounded_statement? (hg : g.Grounded S) : (statement? d g).Grounded S := by
  have hended (st : Statement) : (do semicolon d; return some st).Grounded S :=
    grounded_semicolon.andThen fun _ => grounded_pure _
  refine grounded_kind.andThen fun k => ?_
  split
  · refine groundedTo_advance.andThen fun _ => ?_
    exact (grounded_conditional hg).andThen fun _ => grounded_pure _
  · refine groundedTo_advance.andThen fun _ => ?_
    exact (grounded_whileLoop hg).andThen fun _ => grounded_pure _
  · refine groundedTo_advance.andThen fun _ => ?_
    exact (grounded_forLoop hg).andThen fun _ => grounded_pure _
  · refine groundedTo_advance.andThen fun _ => ?_
    exact (grounded_expr hg).andThen fun value => hended _
  · refine groundedTo_advance.andThen fun _ => grounded_kind.andThen fun k => ?_
    exact .ite ((grounded_expr hg).andThen fun value => hended _) (hended _)
  · refine .ite ((grounded_block hg _).andThen fun _ => grounded_pure _) ?_
    exact .ite ((grounded_expr hg).andThen fun value => hended _) (grounded_pure _)

/-! ### Declarations -/

theorem grounded_functionDeclaration (hg : g.Grounded S) (exported isAsync : Bool) :
    (functionDeclaration d g exported isAsync).Grounded S := by
  refine groundedTo_advance.andThen fun _ => ?_
  refine .consume silent_empty fun name => ?_
  refine (grounded_signature hg).andThen fun params => ?_
  exact (grounded_block hg _).andThen fun _ => grounded_pure _

theorem grounded_bracketedVariables (hg : g.Grounded S) (keyword : VarKeyword) (exported : Bool) :
    (bracketedVariables d g keyword exported).Grounded S := by
  refine (grounded_someNames hg).andThen fun names => ?_
  refine .consume silent_empty fun _ => ?_
  refine grounded_isPlainAssign.andThen fun assigned => .ite ?_ (.unexpected silent_empty)
  refine groundedTo_advance.andThen fun _ => (grounded_assignment hg).andThen fun value => ?_
  exact grounded_semicolon.andThen fun _ => grounded_pure _

/-- `variableDeclaration` complains where neither a name nor a bracket follows. -/
theorem grounded_variableDeclaration (hg : g.Grounded S) (keyword : VarKeyword) (exported : Bool) :
    (variableDeclaration d g keyword exported).Grounded S := by
  refine groundedTo_advance.andThen fun _ => (grounded_take _).andThen fun bracketed => ?_
  refine .ite (grounded_bracketedVariables hg _ _) ?_
  have hrest (name : Token) (value : Option Expr) :
      (do
        endStatement d (.variableEnd keyword)
        return Declaration.var keyword name.text value exported).Grounded S :=
    (grounded_endStatement (.variableEnd keyword) silent_empty).andThen fun _ => grounded_pure _
  refine .consume silent_empty fun name => ?_
  refine grounded_isPlainAssign.andThen fun assigned => .ite ?_ (hrest name none)
  refine groundedTo_advance.andThen fun _ => ?_
  exact (grounded_assignment hg).andThen fun value => hrest name _

theorem grounded_exportComplaint {t : Token} (ht : S t) : (exportComplaint d t).Grounded S := by
  refine grounded_kind.andThen fun k => .ite (.complain ht silent_empty (by simp)) ?_
  exact .ite (.complain ht silent_empty (by simp)) (.unexpected silent_empty)

/-- `declarationFrom` may complain about the word `export`, which it is given. -/
theorem grounded_declarationFrom (hg : g.Grounded S) {exportWord : Option Token}
    (ht : ∀ t ∈ exportWord, S t) (isAsync : Bool) :
    (declarationFrom d g exportWord isAsync).Grounded S := by
  refine grounded_kind.andThen fun k => .ite ?_ (.ite ?_ ?_)
  · cases exportWord with
    | none => exact grounded_pure _
    | some t => exact groundedTo_current.bind fun _ hend => .complain hend silent_empty (by simp)
  · exact (grounded_functionDeclaration hg _ _).andThen fun _ => grounded_pure _
  · split
    · exact (grounded_variableDeclaration hg _ _).andThen fun _ => grounded_pure _
    · next t _ => exact grounded_exportComplaint (ht t rfl)
    · exact (grounded_statement? hg).andThen fun _ => grounded_pure _

/-- The word `export` is kept by `declarationAfter` for the complaint that nothing follows which
it could stand before. -/
theorem grounded_declarationAfter (hg : g.Grounded S) {exportWord : Option Token}
    (ht : ∀ t ∈ exportWord, S t) : (declarationAfter d g exportWord).Grounded S := by
  refine (grounded_take _).andThen fun isAsync => grounded_kind.andThen fun k => ?_
  exact .ite (.unexpected (.ofList (by decide))) (grounded_declarationFrom hg ht _)

theorem grounded_declaration? (hg : g.Grounded S) : (declaration? d g).Grounded S := by
  rw [declaration?_eq]
  refine (grounded_is _).andThen fun exported => .ite ?_ (grounded_declarationAfter hg (by simp))
  exact groundedTo_advance.bind fun t ht => grounded_declarationAfter hg (by simpa using ht)

theorem grounded_pendingComments : pendingComments.Grounded S :=
  grounded_takeComments.andThen fun _ => .ite (grounded_pure _) (grounded_pure _)

/-- `declarations` goes on while there is another one, and leaves what is not to its caller. -/
theorem grounded_declarations (hg : g.Grounded S) : (declarations d g).Grounded S := by
  refine grounded_pendingComments.andThen fun comments => ?_
  refine (grounded_declaration? hg).andThen fun declaration => ?_
  cases declaration with
  | none => exact grounded_pure _
  | some declaration => exact hg.declarations.andThen fun _ => grounded_pure _

/-! ### The file -/

theorem grounded_modulePath : modulePath.Grounded S := by
  refine .consume silent_empty fun _ => ?_
  exact .consume silent_empty fun _ => grounded_pure _

/-- `importedNames` complains about the token at hand where a name, a word or a mark is missing. -/
theorem grounded_importedNames (hg : g.Grounded S) : (importedNames g).Grounded S := by
  refine (grounded_take _).andThen fun whole => .ite ?_ ?_
  · refine .consume (.ofList (by decide)) fun _ => ?_
    refine .consume (.ofList (by decide)) fun name => ?_
    exact grounded_modulePath.andThen fun _ => grounded_pure _
  · refine .consume (.ofList (by decide)) fun _ => ?_
    refine hg.names.andThen fun names => .consume silent_empty fun _ => ?_
    exact grounded_modulePath.andThen fun _ => grounded_pure _

theorem grounded_imports (hg : g.Grounded S) : (imports d g).Grounded S := by
  refine (grounded_take _).andThen fun more => .ite ?_ (grounded_pure _)
  refine (grounded_importedNames hg).andThen fun first => grounded_semicolon.andThen fun _ => ?_
  exact hg.imports.andThen fun _ => grounded_pure _

theorem grounded_moduleLine : (moduleLine d).Grounded S := by
  refine (grounded_take _).andThen fun named => .ite ?_ (grounded_pure _)
  refine .consume (.ofList (by decide)) fun name => ?_
  exact grounded_semicolon.andThen fun _ => grounded_pure _

/-- `program?` asks for the end of the file at last, and complains about whatever else is there. -/
theorem grounded_program? (hg : g.Grounded S) (trailer : Option String) :
    (program? d g trailer).Grounded S := by
  have hrest (leading beforeImports : List Comment) (moduleName : Option String) :
      (do
        let imports ← imports d g
        let body ← declarations d g
        let _ ← consume .eof (.declarationOr .eof)
        return some
          ({ leading := leading ++ beforeImports, moduleName, imports, body,
             trailer := trailer.getD "" } : Program)).Grounded S := by
    refine (grounded_imports hg).andThen fun imports => ?_
    refine (grounded_declarations hg).andThen fun body => ?_
    exact .consume silent_empty fun _ => grounded_pure _
  refine grounded_takeComments.andThen fun leading => groundedTo_current.andThen fun t => ?_
  refine .ite (grounded_pure _) (grounded_moduleLine.andThen fun moduleName => ?_)
  refine (grounded_is _).andThen fun found => .ite ?_ (hrest _ _ _)
  exact grounded_takeComments.andThen fun comments => hrest _ _ _

end Rules

/-- One more layer of rules is grounded if the layer below is. -/
theorem Grammar.Grounded.deeper {S : Token → Prop} {g : Grammar} (hg : g.Grounded S)
    (d : Dialect) : (Rules.deeper d g).Grounded S where
  expr := grounded_expr hg
  sequenceFrom := grounded_sequenceFrom hg
  assignment := grounded_assignment hg
  climb := grounded_climb hg
  climbFrom := grounded_climbFrom hg
  unary := grounded_unary hg
  memberFrom := grounded_memberFrom hg
  pathFrom := grounded_pathFrom hg
  elements := grounded_elements hg
  entries := grounded_entries hg
  names := grounded_names hg
  declarations := grounded_declarations hg
  conditional := grounded_conditional hg
  imports := grounded_imports hg

/-- At every depth `Grammar.ofDepth` complains about tokens that it has been given. -/
theorem Grammar.grounded_ofDepth (S : Token → Prop) (d : Dialect) (n : Nat) :
    (Grammar.ofDepth d n).Grounded S := by
  induction n with
  | zero => exact grounded_exhausted S
  | succ n ih => exact ih.deeper d

/-! ## Texts -/

/-- What `Word.gather` makes words of are the significant tokens. -/
theorem Word.mem_gather {seen : List Comment} {ts : List Token} {w : Word}
    (h : w ∈ Word.gather seen ts) : w.token ∈ ts ∧ w.token.kind.isSignificant = true := by
  fun_induction Word.gather seen ts with
  | case1 => simp at h
  | case2 seen t ts hsignificant ih =>
    obtain rfl | h := List.mem_cons.1 h
    · exact ⟨List.mem_cons_self, hsignificant⟩
    · exact ⟨List.mem_cons_of_mem t (ih h).1, (ih h).2⟩
  | case3 seen t ts _ ih => exact ⟨List.mem_cons_of_mem t (ih h).1, (ih h).2⟩

theorem Word.gather_ne_nil {seen : List Comment} {ts : List Token} {t : Token} (ht : t ∈ ts)
    (h : t.kind.isSignificant = true) : Word.gather seen ts ≠ [] := by
  fun_induction Word.gather seen ts with
  | case1 => simp at ht
  | case2 => exact List.cons_ne_nil _ _
  | case3 seen u ts hblank ih =>
    obtain rfl | ht := List.mem_cons.1 ht
    · exact absurd h hblank
    · exact ih ht

namespace Lexer

/-- The tokens of a lexer's text that are significant, and so come to the grammar. -/
def Offers (l : Lexer) (t : Token) : Prop :=
  t ∈ l.tokens ∧ t.kind.isSignificant = true

/-- The reader of a text has tokens that the text `Offers` before it. The mark of the end is
always one. -/
theorem holds_reader (l : Lexer) : l.reader.Holds l.Offers := by
  obtain ⟨ts, last, hrun, hend⟩ := l.exists_run
  have hstop : last.stop ∈ l.tokens := by
    rw [hrun.tokens hend]
    exact List.mem_append_right _ (List.mem_singleton_self _)
  have hwords : ∀ w ∈ Word.gather [] l.tokens, l.Offers w.token := fun w hw => Word.mem_gather hw
  have hne : Word.gather [] l.tokens ≠ [] := Word.gather_ne_nil hstop rfl
  rw [reader]
  obtain ⟨w, ws, hcons⟩ := List.exists_cons_of_ne_nil hne
  rw [hcons, List.forall_mem_cons] at hwords
  rw [hcons]
  exact ⟨hwords.1, hwords.2⟩

/-- `scan` stays in its file. -/
theorem file_scan (l : Lexer) :
    l.scan.1.loc.file = l.loc.file ∧ l.scan.2.loc.file = l.loc.file := by
  unfold scan
  split <;> exact ⟨rfl, rfl⟩

/-- The tokens of a text are all in its file. -/
theorem file_of_mem_tokens {l : Lexer} {t : Token} (h : t ∈ l.tokens) :
    t.loc.file = l.loc.file := by
  fun_induction tokens l with
  | case1 l _ =>
    obtain rfl := List.mem_singleton.1 h
    exact l.file_scan.1
  | case2 l _ ih =>
    obtain rfl | h := List.mem_cons.1 h
    · exact l.file_scan.1
    · exact (ih h).trans l.file_scan.2

end Lexer

/-- The text of an operator is `Silent`. -/
theorem silent_of_isSign {d : Dialect} {t : Token} (h : Genuine d t.text t.kind)
    (hsign : t.kind.isSign = true) : Silent t.text := by
  obtain ⟨kind, text, loc⟩ := t
  cases kind with
  | punct p =>
    obtain rfl : text = p.spelling := h
    exact p.silent_spelling
  | keyword k =>
    obtain ⟨-, rfl⟩ : _ ∧ text = k.spelling := h
    exact k.silent_spelling
  | assign =>
    obtain ⟨op, -, rfl⟩ : IsAssignment text := h
    exact op.silent_spelling
  | _ => exact absurd hsign Bool.false_ne_true

/-- In the words of a complaint that is `Grounded`, the token that it is about comes where a
token first comes. -/
theorem SyntaxError.Grounded.message {S : Token → Prop} {e : SyntaxError} (h : e.Grounded S)
    (hsign : e.token.kind.isSign = true → Silent e.token.text)
    (hfound : Occurs "but found " e.message) :
    ∃ lead, e.message = lead ++ "but found " ++ e.token.describe ∧ ¬Occurs "but found " lead := by
  obtain ⟨t, c⟩ := e
  by_cases hc : ∃ what, c = .expected what
  · obtain ⟨what, rfl⟩ := hc
    refine ⟨what.wording ++ " ", ?_, ?_⟩
    · show what.wording ++ (" " ++ "but found ") ++ t.describe = _
      rw [← String.append_assoc]
    · exact ((Expectation.silent_wording h.given).append (.ofList (by decide))).not_occurs
  · have hsilent : Silent (c.wording t) :=
      Complaint.silent_wording h.given (fun what hwhat => hc ⟨what, hwhat⟩)
        fun harrow => hsign (h.sign harrow)
    exact absurd hfound hsilent.not_occurs

/-- **Complaints are about tokens of the text**: a syntax error in a file gives that file and the
place of a token of its text that is neither blank, nor a comment, nor the trailer. If its message
holds the words `but found` at all, then what follows them where they first come is the description
of this very token, and nothing else. -/
theorem complaint_about_token {d : Dialect} {file text : String} {e : SyntaxError}
    (h : parseText d file text = .error (.source e)) :
    e.token.loc.file = file ∧
      ∃ t ∈ (Lexer.ofText d file text).tokens, t.kind.isSignificant = true ∧
        e.token.loc.line = t.loc.line ∧ e.token.loc.column = t.loc.column ∧
        (Occurs "but found " e.message →
          ∃ lead, e.message = lead ++ "but found " ++ t.describe ∧ ¬Occurs "but found " lead) := by
  have hgrounded : e.Grounded (Lexer.ofText d file text).Offers := by
    have hrun := grounded_program? (d := d)
      (Grammar.grounded_ofDepth _ d (Lexer.ofText d file text).reader.ahead.length)
      (cut d text.toList).trailer (Lexer.ofText d file text).holds_reader
    rw [parseText_eq] at h
    split at hrun
    · next hok =>
      rw [hok] at h
      cases h
    · next e' herror =>
      rw [herror] at h
      cases h
      exact hrun
  obtain ⟨hmem, hsignificant⟩ := hgrounded.token
  refine ⟨Lexer.file_of_mem_tokens hmem, e.token, hmem, hsignificant, rfl, rfl, ?_⟩
  refine hgrounded.message fun hsign => ?_
  -- an operator is a token with text of its own, which the lexer has classified
  have hne : e.token.kind ≠ .eof := by
    intro heof
    rw [heof] at hsign
    cases hsign
  obtain ⟨rest, hfound⟩ := Lexer.exists_classify hmem hne
  exact silent_of_isSign (genuine_of_classify_append hfound) hsign

/-- The `SyntaxError` that something failed with. -/
def syntaxError? {α : Type} : Except Error α → Option SyntaxError
  | .error (.source e) => some e
  | _ => none

theorem eq_error_of_syntaxError? {α : Type} {x : Except Error α} {e : SyntaxError}
    (h : syntaxError? x = some e) : x = .error (.source e) := by
  unfold syntaxError? at h
  split at h
  · rw [Option.some.inj h]
  · cases h

/-- The words `but found` may stand in the token itself. -/
theorem complaint_about_token_string :
    ∃ e, parseText .brace "f" "1\n'but found EOF'" = .error (.source e) ∧
      e.token.loc.file = "f" ∧
      ∃ t ∈ (Lexer.ofText .brace "f" "1\n'but found EOF'").tokens, t.kind.isSignificant = true ∧
        e.token.loc.line = t.loc.line ∧ e.token.loc.column = t.loc.column ∧
        ∃ lead, e.message = lead ++ "but found " ++ t.describe ∧ ¬Occurs "but found " lead := by
  have herror : parseText .brace "f" "1\n'but found EOF'" = .error (.source
      { token := ⟨.string, "'but found EOF'", ⟨⟨2, 1⟩, "f", 2⟩⟩,
        complaint := .expected (.token (.punct .semicolon)) }) := by
    refine eq_error_of_syntaxError? ?_
    rw [parseText, parse, Lexer.run, Lexer.tokens_ofText]
    decide +kernel
  obtain ⟨hfile, t, ht, hsignificant, hline, hcolumn, hfound⟩ := complaint_about_token herror
  refine ⟨_, herror, hfile, t, ht, hsignificant, hline, hcolumn, hfound ?_⟩
  exact ⟨"expected `;` ".toList, "STRING (`'but found EOF'`)".toList, by decide +kernel⟩

end Diglot

import Diglot.Proofs.Soundness

/-!
# What is derived is read

The converse of soundness: where a phrase is derived from a tape, the rule for it reads that phrase
and leaves what the derivation leaves. A derivation determines each choice that a rule makes, so
the proof goes by induction on the derivation and follows the rule through it, one step of the
parser for one premise.

- `Parser.Gives`: what a parser does to a tape, whatever the places of its tokens.
- `Rules.Runs`, `Rules.Enters`: a rule, or the grammar it is built on, gives what is derived.
- `Reads.completes`: the rules do, in a grammar as deep as there are tokens.
-/

namespace Diglot

/-! ## What a parser does to a tape -/

namespace Parser

variable {α β : Type} {d : Dialect} {S S₁ S' : Tape} {a : α} {b : β} {k : TokenKind} {t : String}

/-- On each reader of a `Tape.Proper` tape the parser succeeds with `a` and leaves the tape
`S'`. -/
def Gives (d : Dialect) (x : Parser α) (S : Tape) (a : α) (S' : Tape) : Prop :=
  ∀ r : Reader, r.tape = S → S.Proper d →
    ∃ r' : Reader, x.run r = .ok (a, r') ∧ r'.tape = S' ∧ S'.Proper d

namespace Gives

protected theorem pure {a' : α} (h : a' = a) : Gives d (pure a') S a S := by
  subst h
  exact fun r hr hS => ⟨r, rfl, hr, hS⟩

/-- What a first parser `Gives` and leaves is where the second one goes on. -/
protected theorem bind {x : Parser β} {f : β → Parser α} (hx : Gives d x S b S₁)
    (hf : Gives d (f b) S₁ a S') : Gives d (x >>= f) S a S' := by
  intro r hr hS
  obtain ⟨r₁, hx₁, hr₁, hS₁⟩ := hx r hr hS
  obtain ⟨r', hf', hr', hS'⟩ := hf r₁ hr₁ hS₁
  exact ⟨r', by rw [StateT.run_bind, hx₁]; exact hf', hr', hS'⟩

protected theorem kind {f : TokenKind → Parser α} (hf : Gives d (f S.kind) S a S') :
    Gives d (kind >>= f) S a S' := by
  refine .bind (fun r hr hS => ?_) hf
  subst hr
  exact ⟨r, by rw [Reader.kind_tape]; rfl, rfl, hS⟩

/-- A look at the token at hand, of which a tape has the `kind` and the `text` and not the
place. -/
theorem look {f : Token → Parser α}
    (hf : ∀ tok, tok.kind = S.kind → tok.text = S.text → Gives d (f tok) S a S') :
    Gives d (current >>= f) S a S' := by
  intro r hr hS
  subst hr
  exact hf r.current r.kind_tape.symm r.text_tape.symm r rfl hS

/-- The same where a derivation has a token taken later. -/
protected theorem current {f : Token → Parser α} (h : Takes S k t S₁)
    (hf : ∀ tok, tok.kind = k → tok.text = t → Gives d (f tok) S a S') :
    Gives d (current >>= f) S a S' :=
  .look fun tok hk ht => hf tok (hk.trans h.kind_eq) (ht.trans h.text_eq)

/-- Going past a token as `Takes` does. The mark of the end is not gone past. -/
protected theorem advance {f : Token → Parser α} (h : Takes S k t S₁) (hk : k ≠ .eof)
    (hf : ∀ tok, tok.kind = k → tok.text = t → Gives d (f tok) S₁ a S') :
    Gives d (advance >>= f) S a S' := by
  intro r hr hS
  subst hr
  obtain ⟨hkind, htext, hnext⟩ := Reader.next_of_takes hS hk h
  exact hf r.current hkind htext r.next hnext (hS.takes hk h)

/-- Going past a token whose text does not matter, as `Passes` does. -/
theorem skip {x : Parser α} (h : Passes S k S₁) (hk : k ≠ .eof) (hx : Gives d x S₁ a S') :
    Gives d (advance >>= fun _ => x) S a S' := by
  obtain ⟨t, ht⟩ := h
  exact .advance ht hk fun _ _ _ => hx

protected theorem is (k : TokenKind) : Gives d (is k) S (S.kind == k) S := by
  intro r hr hS
  subst hr
  exact ⟨r, by rw [Reader.kind_tape]; rfl, rfl, hS⟩

/-- A choice by `is` where the token is there. -/
theorem is_yes {x y : Parser α} (h : S.kind = k) (hx : Gives d x S a S') :
    Gives d (is k >>= fun b => if b = true then x else y) S a S' := by
  refine .bind (.is k) ?_
  rwa [if_pos (beq_iff_eq.2 h)]

/-- A choice by `is` where it is not. -/
theorem is_no {x y : Parser α} (h : S.kind ≠ k) (hy : Gives d y S a S') :
    Gives d (is k >>= fun b => if b = true then x else y) S a S' := by
  refine .bind (.is k) ?_
  rwa [if_neg (by simpa using h)]

/-- Taking a token, if it is there, as `Flag` says it is. -/
theorem flag {f : Bool → Parser α} {b : Bool} (h : Flag k S b S₁) (hk : k ≠ .eof)
    (hf : Gives d (f b) S₁ a S') : Gives d (take k >>= f) S a S' := by
  refine .bind (fun r hr hS => ?_) hf
  subst hr
  cases h with
  | yes h =>
    obtain ⟨t, ht⟩ := h
    obtain ⟨hkind, -, hnext⟩ := Reader.next_of_takes hS hk ht
    exact ⟨r.next, run_take_of_eq hkind, hnext, hS.takes hk ht⟩
  | no h => exact ⟨r, run_take_of_ne (by simpa using h), rfl, hS⟩

theorem take_yes {x y : Parser α} (h : Passes S k S₁) (hk : k ≠ .eof) (hx : Gives d x S₁ a S') :
    Gives d (take k >>= fun b => if b = true then x else y) S a S' :=
  .flag (.yes h) hk (by simpa using hx)

theorem take_no {x y : Parser α} (h : S.kind ≠ k) (hk : k ≠ .eof) (hy : Gives d y S a S') :
    Gives d (take k >>= fun b => if b = true then x else y) S a S' :=
  .flag (.no h) hk (by simpa using hy)

/-- `consume` succeeds on the token that a derivation `Takes`. -/
protected theorem consume {f : Token → Parser α} {what : Expectation} (h : Takes S k t S₁)
    (hk : k ≠ .eof) (hf : ∀ tok, tok.text = t → Gives d (f tok) S₁ a S') :
    Gives d (consume k what >>= f) S a S' := by
  intro r hr hS
  subst hr
  obtain ⟨hkind, htext, hnext⟩ := Reader.next_of_takes hS hk h
  obtain ⟨r', hf', hr'⟩ := hf r.current htext r.next hnext (hS.takes hk h)
  exact ⟨r', by rw [StateT.run_bind, run_consume_of_eq hkind]; exact hf', hr'⟩

/-- Consuming a token whose text does not matter. -/
theorem pass {x : Parser α} {what : Expectation} (h : Passes S k S₁) (hk : k ≠ .eof)
    (hx : Gives d x S₁ a S') : Gives d (consume k what >>= fun _ => x) S a S' := by
  obtain ⟨t, ht⟩ := h
  exact .consume ht hk fun _ _ => hx

/-- The end is consumed and stays where it is. -/
theorem pass_end {x : Parser α} {what : Expectation} (hx : Gives d x [.token .eof ""] a S') :
    Gives d (consume .eof what >>= fun _ => x) [.token .eof ""] a S' := by
  intro r hr hS
  have hkind : r.current.kind = .eof := by
    rw [← r.kind_tape, hr]
    rfl
  have hahead : r.ahead = [] := by
    have htokens := r.tokens_tape
    rw [hr] at htokens
    exact List.eq_nil_of_length_eq_zero (Nat.succ.inj htokens).symm
  have hnext : r.next = r := by
    rw [Reader.next, hahead]
  obtain ⟨r', hx', hr'⟩ := hx r hr hS
  exact ⟨r', by rw [StateT.run_bind, run_consume_of_eq hkind, hnext]; exact hx', hr'⟩

/-- `takeComments` gives what is `waiting` on the tape and leaves it flushed. -/
protected theorem takeComments {f : List Comment → Parser α}
    (hf : Gives d (f S.waiting) S.flush a S') : Gives d (takeComments >>= f) S a S' := by
  refine .bind (fun r hr hS => ?_) hf
  subst hr
  exact ⟨{ r with pending := [] }, by rw [Reader.waiting_tape]; rfl, r.tape_flushed, hS.flush⟩

protected theorem build {x : Except Defect α} (h : x = .ok a) : Gives d (build x) S a S := by
  subst h
  exact .pure rfl

/-- `operand` lets through whatever is no arrow function. -/
protected theorem operand {e : Expr} {tok : Token} (h : e.isArrow = false) :
    Gives d (Rules.operand tok e) S e S := by
  simp only [Rules.operand, h]
  exact .pure rfl

protected theorem memberName (h : Takes S k t S') (hk : k.namesMember = true) :
    Gives d Rules.memberName S (.symbol t) S' := by
  refine .kind ?_
  have hyes : (S.kind == .symbol || S.kind == .boolean || S.kind.isKeyword) = true := by
    rw [h.kind_eq]
    exact hk
  rw [if_pos hyes]
  exact .advance h (TokenKind.ne_eof_of_namesMember hk) fun tok _ htext => .pure (by rw [htext])

end Gives

end Parser

/-! ## What the rules do -/

namespace Rules

open Parser

variable {d : Dialect} {g : Grammar} {S S₁ S₂ S₃ S₄ S₅ S₆ S' : Tape}

/-- Elements between parentheses are read by `arguments` and by `parenthesized`, but always in
the same way. -/
def GivesArguments (d : Dialect) (g : Grammar) (S : Tape) (args : Expr) (S' : Tape) : Prop :=
  ∃ es comma S₁ S₂, args = .list es comma ∧ Passes S (.punct .lparen) S₁ ∧
    Gives d (g.elements (.punct .rparen) false) S₁ (es, comma) S₂ ∧ Passes S₂ (.punct .rparen) S'

theorem GivesArguments.gives {args : Expr} (h : GivesArguments d g S args S') :
    Gives d (arguments g) S args S' := by
  obtain ⟨es, comma, S₁, S₂, rfl, ho, he, hc⟩ := h
  exact .pass ho (by decide) (.bind he (.pass hc (by decide) (.pure rfl)))

theorem GivesArguments.kind_eq {args : Expr} (h : GivesArguments d g S args S') :
    S.kind = .punct .lparen := by
  obtain ⟨es, comma, S₁, S₂, rfl, ⟨t, ho⟩, he, hc⟩ := h
  exact ho.kind_eq

/-- `block` reads declarations between the marks of the dialect. -/
theorem gives_block {body : Block} {context : BlockContext} (h : Passes S d.blockOpen S₁)
    (hb : Gives d g.declarations S₁ body S₂) (hc : Passes S₂ d.blockClose S') :
    Gives d (block d g context) S body S' :=
  .pass h (by simp) (.bind hb (.pass hc (by simp) (.pure rfl)))

theorem gives_signature {ps : List String} (h : Passes S (.punct .lparen) S₁)
    (hp : Gives d g.names S₁ ps S₂) (hc : Passes S₂ (.punct .rparen) S') :
    Gives d (signature g) S ps S' :=
  .pass h (by decide) (.bind hp (.pass hc (by decide) (.pure rfl)))

/-! ### Operands -/

theorem gives_symbol {n : String} (h : Takes S .symbol n S') :
    Gives d (primary d g) S (.symbol n) S' := by
  refine .current h fun tok hk ht => ?_
  simp only [hk, ht]
  exact .skip ⟨_, h⟩ (by decide) (.pure rfl)

theorem gives_literal {k : TokenKind} {v : Literal} (h : Passes S k S') (hk : k ≠ .eof) :
    Gives d (literal v) S (.literal v) S' :=
  .skip h hk (.pure rfl)

/-- A number within `maxFixnum` is read as itself. -/
theorem gives_fixnum {t : String} (h : Takes S .fixnum t S')
    (hr : Decimal.natOfDigits t.toList ≤ maxFixnum) :
    Gives d (primary d g) S (.literal (.fixnum (Decimal.natOfDigits t.toList) t)) S' := by
  refine .current h fun tok hk ht => ?_
  simp only [hk, fixnum, ht, if_pos hr]
  exact gives_literal ⟨_, h⟩ (by decide)

theorem gives_object {es : List Entry} (h : Passes S (.punct .lbrace) S₁)
    (he : Gives d g.entries S₁ es S₂) (hc : Passes S₂ (.punct .rbrace) S') :
    Gives d (primary d g) S (.object es) S' := by
  obtain ⟨t, ht⟩ := h
  refine .current ht fun tok hk _ => ?_
  simp only [hk, object]
  exact .skip ⟨t, ht⟩ (by decide) (.bind he (.pass hc (by decide) (.pure rfl)))

theorem gives_array {es : List Expr} {comma : Bool} (h : Passes S (.punct .lbrack) S₁)
    (he : Gives d (g.elements (.punct .rbrack) false) S₁ (es, comma) S₂)
    (hc : Passes S₂ (.punct .rbrack) S') : Gives d (primary d g) S (.array es) S' := by
  obtain ⟨t, ht⟩ := h
  refine .current ht fun tok hk _ => ?_
  simp only [hk, array]
  exact .skip ⟨t, ht⟩ (by decide) (.bind he (.pass hc (by decide) (.pure rfl)))

/-- One element in parentheses without a comma is `Expr.grouping`, if no arrow follows. -/
theorem gives_grouping {e : Expr} (h : GivesArguments d g S (.list [e] false) S')
    (ha : S'.kind ≠ .punct .arrow) : Gives d (primary d g) S (.grouping e) S' := by
  obtain ⟨es, comma, S₂, S₃, heq, ⟨t, ho⟩, he, hc⟩ := h
  cases heq
  refine .current ho fun tok hk _ => ?_
  simp only [hk, parenthesized]
  exact .skip ⟨t, ho⟩ (by decide) (.bind he (.pass hc (by decide) (.is_no ha (.pure rfl))))

/-- Any others are `Expr.list`. -/
theorem gives_list {es : List Expr} {comma : Bool} (h : GivesArguments d g S (.list es comma) S')
    (ha : S'.kind ≠ .punct .arrow) (hne : es ≠ []) (htwo : ∀ e, es = [e] → comma = true) :
    Gives d (primary d g) S (.list es comma) S' := by
  obtain ⟨es, comma, S₂, S₃, heq, ⟨t, ho⟩, he, hc⟩ := h
  cases heq
  refine .current ho fun tok hk _ => ?_
  simp only [hk, parenthesized]
  refine .skip ⟨t, ho⟩ (by decide) (.bind he (.pass hc (by decide) (.is_no ha ?_)))
  cases es with
  | nil => exact absurd rfl hne
  | cons e es =>
    cases es with
    | nil =>
      obtain rfl := htwo e rfl
      exact .pure rfl
    | cons _ _ => exact .pure rfl

/-- Parentheses before an arrow hold its parameters, and `arrow` reads the rest. -/
theorem gives_parameters {es : List Expr} {comma : Bool} {e : Expr}
    (h : GivesArguments d g S (.list es comma) S₁) (ha : S₁.kind = .punct .arrow)
    (he : Gives d (arrow d g es) S₁ e S') : Gives d (primary d g) S e S' := by
  obtain ⟨es, comma, S₂, S₃, heq, ⟨t, ho⟩, hes, hc⟩ := h
  cases heq
  refine .current ho fun tok hk _ => ?_
  simp only [hk, parenthesized]
  exact .skip ⟨t, ho⟩ (by decide) (.bind hes (.pass hc (by decide) (.is_yes ha he)))

/-- `arrowParams` takes expressions that are names for the names. -/
theorem gives_arrowParams {tok : Token} (ps : List String) :
    Gives d (arrowParams tok (ps.map .symbol)) S ps S := by
  induction ps with
  | nil => exact .pure rfl
  | cons p ps ih => exact .bind ih (.pure rfl)

/-- An arrow function whose body is an expression does not go on with the mark of a block. -/
theorem gives_arrow {ps : List String} {comma : Bool} {body : Expr}
    (h : GivesArguments d g S (.list (ps.map .symbol) comma) S₁)
    (ha : Passes S₁ (.punct .arrow) S₂) (ho : S₂.kind ≠ d.blockOpen)
    (hb : Gives d g.assignment S₂ body S') : Gives d (primary d g) S (.arrow ps body) S' := by
  obtain ⟨t, ht⟩ := ha
  refine gives_parameters h ht.kind_eq (.advance ht (by decide) fun tok _ _ => ?_)
  exact .bind (gives_arrowParams ps) (.is_no ho (.bind hb (.pure rfl)))

theorem gives_arrowBlock {ps : List String} {comma : Bool} {body : Block}
    (h : GivesArguments d g S (.list (ps.map .symbol) comma) S₁)
    (ha : Passes S₁ (.punct .arrow) S₂) (ho : S₂.kind = d.blockOpen)
    (hb : ∀ context, Gives d (block d g context) S₂ body S') :
    Gives d (primary d g) S (.arrowBlock ps body) S' := by
  obtain ⟨t, ht⟩ := ha
  refine gives_parameters h ht.kind_eq (.advance ht (by decide) fun tok _ _ => ?_)
  exact .bind (gives_arrowParams ps) (.is_yes ho (.bind (hb _) (.pure rfl)))

/-- The word of a function begins an expression that `functionLiteral` reads. -/
theorem gives_function {e : Expr} (h : Passes S d.functionWord S₁)
    (he : Gives d (functionLiteral d g) S e S') : Gives d (primary d g) S e S' := by
  obtain ⟨t, ht⟩ := h
  refine .current ht fun tok hk _ => ?_
  simp only [hk]
  cases d <;> simpa [Dialect.functionWord] using he

/-- With a name at hand a function has this name. -/
theorem gives_functionNamed {n : String} {ps : List String} {body : Block}
    (h : Passes S d.functionWord S₁) (hn : Takes S₁ .symbol n S₂)
    (hp : Gives d (signature g) S₂ ps S₃)
    (hb : ∀ context, Gives d (block d g context) S₃ body S') :
    Gives d (primary d g) S (.function (some n) ps body) S' := by
  refine gives_function h (.skip h (by simp) ?_)
  refine .is_yes hn.kind_eq (.advance hn (by decide) fun tok _ htext => ?_)
  simp only [pure_bind, htext]
  exact .bind hp (.bind (hb _) (.pure rfl))

/-- Without one it has none. -/
theorem gives_functionBare {ps : List String} {body : Block} (h : Passes S d.functionWord S₁)
    (hn : S₁.kind ≠ .symbol) (hp : Gives d (signature g) S₁ ps S₂)
    (hb : ∀ context, Gives d (block d g context) S₂ body S') :
    Gives d (primary d g) S (.function none ps body) S' := by
  refine gives_function h (.skip h (by simp) (.is_no hn ?_))
  simp only [pure_bind]
  exact .bind hp (.bind (hb _) (.pure rfl))

/-! ### Values and what follows them -/

theorem gives_pathMore {k : TokenKind} {n : String} {e x : Expr}
    (h : Passes S (.punct .dot) S₁) (hn : Takes S₁ k n S₂) (hk : k.namesMember = true)
    (hx : Gives d (g.pathFrom (.binary .dot e (.symbol n))) S₂ x S') :
    Gives d (pathFrom g e) S x S' :=
  .take_yes h (by decide) (.bind (.memberName hn hk) (.bind (.build rfl) hx))

/-- `memberFrom` stops where nothing `extendsValue`. -/
theorem gives_memberEnd {e : Expr} (h : S.kind.extendsValue = false) :
    Gives d (memberFrom g e) S e S := by
  refine .kind ?_
  unfold TokenKind.extendsValue at h
  split <;> simp_all
  exact .pure rfl

/-- `memberFrom` goes on from a call. -/
theorem gives_memberCall {e args x : Expr} (ho : e.isArrow = false)
    (h : GivesArguments d g S args S₁) (hx : Gives d (g.memberFrom (.call e args)) S₁ x S') :
    Gives d (memberFrom g e) S x S' := by
  have hargs := h.gives
  have hkind := h.kind_eq
  obtain ⟨es, comma, S₂, S₃, rfl, ⟨t, hopen⟩, -, -⟩ := h
  refine .kind ?_
  simp only [hkind]
  exact .current hopen fun tok _ _ => .bind (.operand ho) (.bind hargs (.bind (.build rfl) hx))

theorem gives_memberIndex {e p x : Expr} (ho : e.isArrow = false)
    (h : Passes S (.punct .lbrack) S₁) (hp : Gives d g.expr S₁ p S₂)
    (hc : Passes S₂ (.punct .rbrack) S₃) (hx : Gives d (g.memberFrom (.index e p)) S₃ x S') :
    Gives d (memberFrom g e) S x S' := by
  obtain ⟨t, ht⟩ := h
  refine .kind ?_
  simp only [ht.kind_eq]
  refine .advance ht (by decide) fun tok _ _ => .bind (.operand ho) (.bind hp ?_)
  exact .pass hc (by decide) hx

/-- `memberFrom` goes on from a member, whose name may be any word. -/
theorem gives_memberDot {k : TokenKind} {n : String} {e x : Expr} (ho : e.isArrow = false)
    (h : Passes S (.punct .dot) S₁) (hn : Takes S₁ k n S₂) (hk : k.namesMember = true)
    (hx : Gives d (g.memberFrom (.binary .dot e (.symbol n))) S₂ x S') :
    Gives d (memberFrom g e) S x S' := by
  obtain ⟨t, ht⟩ := h
  refine .kind ?_
  simp only [ht.kind_eq]
  refine .advance ht (by decide) fun tok _ _ => .bind (.operand ho) ?_
  exact .bind (.memberName hn hk) (.bind (.build rfl) hx)

/-- `new` without arguments is complete: `member` does not go on from it. -/
theorem gives_newBare {n : String} {t : Expr} (h : Passes S (.keyword .newKw) S₁)
    (hn : Takes S₁ .symbol n S₂) (ht : Gives d (pathFrom g (.symbol n)) S₂ t S')
    (hpath : t.isSymbolPath = true) (hp : S'.kind ≠ .punct .lparen) :
    Gives d (member d g) S (.unary .new t) S' := by
  obtain ⟨w, hw⟩ := h
  refine .is_yes hw.kind_eq (.bind (b := (.unary .new t, true)) ?_ (.pure rfl))
  refine .skip ⟨w, hw⟩ (by decide) (.consume hn (by decide) fun tok htext => ?_)
  rw [htext]
  refine .bind ht (.is_no hp (.bind (.build ?_) (.pure rfl)))
  simp [Expr.unary?, hpath]

/-- With arguments it does. -/
theorem gives_newCall {n : String} {t args x : Expr} (h : Passes S (.keyword .newKw) S₁)
    (hn : Takes S₁ .symbol n S₂) (ht : Gives d (pathFrom g (.symbol n)) S₂ t S₃)
    (hpath : t.isSymbolPath = true) (ha : GivesArguments d g S₃ args S₄)
    (hlist : args.isList = true)
    (hx : Gives d (memberFrom g (.binary .new t args)) S₄ x S') :
    Gives d (member d g) S x S' := by
  obtain ⟨w, hw⟩ := h
  refine .is_yes hw.kind_eq (.bind (b := (.binary .new t args, false)) ?_ (by simpa using hx))
  refine .skip ⟨w, hw⟩ (by decide) (.consume hn (by decide) fun tok htext => ?_)
  rw [htext]
  refine .bind ht (.is_yes ha.kind_eq (.bind ha.gives (.bind (.build ?_) (.pure rfl))))
  simp [Expr.binary?, hpath, hlist]

/-! ### Operators -/

theorem gives_stepNone {e : Expr} (he : Gives d (member d g) S e S')
    (h : stepOp? S'.kind = none) : Gives d (step d g) S e S' := by
  refine .bind he (.kind ?_)
  simp only [h]
  exact .pure rfl

/-- An operator after a value, which is no arrow function. -/
theorem gives_stepSome {k : TokenKind} {op : StepOp} {e : Expr} (he : Gives d (member d g) S e S₁)
    (h : Passes S₁ k S') (hk : stepOp? k = some op) (ho : e.isArrow = false) :
    Gives d (step d g) S (.step op e) S' := by
  obtain ⟨t, ht⟩ := h
  refine .bind he (.kind ?_)
  simp only [ht.kind_eq, hk]
  have hne : k ≠ .eof := by rintro rfl; simp [stepOp?] at hk
  exact .advance ht hne fun tok _ _ => .bind (.operand ho) (.pure rfl)

theorem gives_unaryNone {e : Expr} (h : unaryOp? S.kind = none) (he : Gives d (step d g) S e S') :
    Gives d (unary d g) S e S' := by
  refine .kind ?_
  simpa only [h] using he

/-- An operator before an operand. That `unary?` builds it follows from `unaryOp?` having found
it. -/
theorem gives_unarySome {k : TokenKind} {op : UnaryOp} {e : Expr} (h : Passes S k S₁)
    (hk : unaryOp? k = some op) (he : Gives d g.unary S₁ e S') (ho : e.isArrow = false) :
    Gives d (unary d g) S (.unary op e) S' := by
  obtain ⟨t, ht⟩ := h
  refine .kind ?_
  simp only [ht.kind_eq, hk]
  have hne : k ≠ .eof := by rintro rfl; simp [unaryOp?] at hk
  refine .advance ht hne fun tok _ _ => .bind he (.bind (.operand ho) (.build ?_))
  exact unary?_of_unaryOp? hk e

/-- `climbFrom` stops before an operator that binds less strongly than its bound. -/
theorem gives_climbEnd {b : Precedence} {l : Expr}
    (h : ∀ op, infixOp? S.kind = some op → op.precedence < b) :
    Gives d (climbFrom g b l) S l S := by
  refine .kind ?_
  split
  · exact .pure rfl
  · next op hop =>
    rw [if_pos (h op hop)]
    exact .pure rfl

/-- `climbFrom` goes on with any other operator, unless a power sign follows an `isOpenUnary`
operand. -/
theorem gives_climbMore {k : TokenKind} {op : BinaryOp} {b : Precedence} {l r x : Expr}
    (h : Passes S k S₁) (hk : infixOp? k = some op) (hb : b ≤ op.precedence)
    (hl : l.isArrow = false) (hu : ¬(op = .exp ∧ isOpenUnary l = true))
    (hr : Gives d (g.climb (rightBound op)) S₁ r S₂) (ho : r.isArrow = false)
    (hx : Gives d (g.climbFrom b (.binary op l r)) S₂ x S') : Gives d (climbFrom g b l) S x S' := by
  obtain ⟨t, ht⟩ := h
  refine .kind ?_
  simp only [ht.kind_eq, hk, if_neg (Nat.not_lt.2 hb)]
  have hne : k ≠ .eof := by rintro rfl; simp [infixOp?] at hk
  refine .advance ht hne fun tok _ _ => .bind (.operand hl) ?_
  rw [if_neg hu]
  exact .bind hr (.bind (.operand ho) (.bind (.build (binary?_of_infixOp? hk l r)) hx))

theorem gives_assignmentNone {e : Expr} (he : Gives d (climb d g .or) S e S')
    (ha : S'.kind ≠ .assign) (hq : S'.kind ≠ .punct .question) :
    Gives d (assignment d g) S e S' := by
  refine .bind he (.kind ?_)
  split
  · next hk => exact absurd hk ha
  · next hk => exact absurd hk hq
  · exact .pure rfl

/-- An assignment, by the operator that its `spelling` stands for. -/
theorem gives_assignmentSome {t : String} {op : BinaryOp} {l r : Expr}
    (hl : Gives d (climb d g .or) S l S₁) (h : Takes S₁ .assign t S₂)
    (ht : BinaryOp.ofSpelling? t = some op) (hop : op.precedence = .assignment)
    (ho : l.isArrow = false) (hr : Gives d g.assignment S₂ r S') :
    Gives d (assignment d g) S (.binary op l r) S' := by
  refine .bind hl (.kind ?_)
  simp only [h.kind_eq]
  refine .advance h (by decide) fun tok _ htext => .bind (.build (a := op) ?_) ?_
  · simp [htext, BinaryOp.parse?, ht]
  · exact .bind (.operand ho) (.bind hr (.build (binary?_of_assignment hop l r)))

/-- A ternary, whose colon has to be there. -/
theorem gives_ternary {t y n : Expr} (ht : Gives d (climb d g .or) S t S₁)
    (h : Passes S₁ (.punct .question) S₂) (ho : t.isArrow = false)
    (hy : Gives d g.assignment S₂ y S₃) (hc : Passes S₃ (.punct .colon) S₄)
    (hn : Gives d g.assignment S₄ n S') : Gives d (assignment d g) S (.ternary t y n) S' := by
  obtain ⟨w, hw⟩ := h
  refine .bind ht (.kind ?_)
  simp only [hw.kind_eq]
  refine .advance hw (by decide) fun tok _ _ => .bind (.operand ho) (.bind hy ?_)
  exact .pass hc (by decide) (.bind hn (.pure rfl))

/-- `sequenceFrom` goes on after a comma. -/
theorem gives_sequenceMore {l r x : Expr} (h : Passes S (.punct .comma) S₁)
    (hr : Gives d g.assignment S₁ r S₂)
    (hx : Gives d (g.sequenceFrom (.binary .comma l r)) S₂ x S') :
    Gives d (sequenceFrom g l) S x S' :=
  .take_yes h (by decide) (.bind hr (.bind (.build rfl) hx))

/-! ### Elements and entries -/

/-- `elements` stops at the closing token or at the end. -/
theorem gives_elementsNone {close : TokenKind} {b : Bool} (h : S.kind = close ∨ S.kind = .eof) :
    Gives d (elements d g close b) S ([], b) S := by
  refine .kind ?_
  rw [if_pos h]
  exact .pure rfl

/-- An element without a comma is the last one. -/
theorem gives_elementsLast {close : TokenKind} {b : Bool} {e : Expr}
    (h : ¬(S.kind = close ∨ S.kind = .eof)) (he : Gives d (assignment d g) S e S')
    (hc : S'.kind ≠ .punct .comma) : Gives d (elements d g close b) S ([e], false) S' := by
  refine .kind ?_
  rw [if_neg h]
  exact .bind he (.take_no hc (by decide) (.pure rfl))

/-- One with a comma is followed by `elements` again, perhaps by none. -/
theorem gives_elementsMore {close : TokenKind} {b comma : Bool} {e : Expr} {es : List Expr}
    (h : ¬(S.kind = close ∨ S.kind = .eof)) (he : Gives d (assignment d g) S e S₁)
    (hc : Passes S₁ (.punct .comma) S₂) (hes : Gives d (g.elements close true) S₂ (es, comma) S') :
    Gives d (elements d g close b) S (e :: es, comma) S' := by
  refine .kind ?_
  rw [if_neg h]
  exact .bind he (.take_yes hc (by decide) (.bind hes (.pure rfl)))

/-- The expression that `entryKey` gives is taken for the key by `Entry.ofExpr?`. -/
theorem gives_entryKey {k : TokenKind} {t : String} {key : Key} (h : Takes S k t S')
    (hk : Key.ofToken? t k = some key) : ∃ e, Gives d entryKey S e S' ∧
      (∀ v, Entry.ofExpr? e (some v) = .ok (.pair key v)) ∧
      Entry.ofExpr? e none = .ok (.shorthand key) := by
  unfold Key.ofToken? at hk
  split at hk
  · obtain rfl := Option.some.inj hk
    refine ⟨.symbol t, .current h fun tok hkind htext => ?_, fun _ => rfl, rfl⟩
    simp only [hkind, htext]
    exact .skip ⟨t, h⟩ (by decide) (.pure rfl)
  · obtain rfl := Option.some.inj hk
    refine ⟨.literal (.string t t), .current h fun tok hkind htext => ?_, fun _ => rfl, rfl⟩
    simp only [hkind, htext]
    exact gives_literal ⟨t, h⟩ (by decide)
  · exact absurd hk (by simp)

theorem gives_entryShort {k : TokenKind} {t : String} {key : Key} (h : Takes S k t S')
    (hk : Key.ofToken? t k = some key) (hc : S'.kind ≠ .punct .colon) :
    Gives d (entry d g) S (.shorthand key) S' := by
  obtain ⟨e, he, -, hnone⟩ := gives_entryKey h hk
  exact .bind he (.take_no hc (by decide) (.build hnone))

/-- An entry with a value has a colon after its key. -/
theorem gives_entryPair {k : TokenKind} {t : String} {key : Key} {v : Expr} (h : Takes S k t S₁)
    (hk : Key.ofToken? t k = some key) (hc : Passes S₁ (.punct .colon) S₂)
    (hv : Gives d (assignment d g) S₂ v S') : Gives d (entry d g) S (.pair key v) S' := by
  obtain ⟨e, he, hsome, -⟩ := gives_entryKey h hk
  exact .bind he (.take_yes hc (by decide) (.bind hv (.build (hsome v))))

theorem gives_entriesNone (h : S.kind = .punct .rbrace ∨ S.kind = .eof) :
    Gives d (entries d g) S [] S := by
  refine .kind ?_
  rw [if_pos h]
  exact .pure rfl

theorem gives_entriesLast {e : Entry} (h : ¬(S.kind = .punct .rbrace ∨ S.kind = .eof))
    (he : Gives d (entry d g) S e S') (hc : S'.kind ≠ .punct .comma) :
    Gives d (entries d g) S [e] S' := by
  refine .kind ?_
  rw [if_neg h]
  exact .bind he (.take_no hc (by decide) (.pure rfl))

theorem gives_entriesMore {e : Entry} {es : List Entry}
    (h : ¬(S.kind = .punct .rbrace ∨ S.kind = .eof)) (he : Gives d (entry d g) S e S₁)
    (hc : Passes S₁ (.punct .comma) S₂) (hes : Gives d g.entries S₂ es S') :
    Gives d (entries d g) S (e :: es) S' := by
  refine .kind ?_
  rw [if_neg h]
  exact .bind he (.take_yes hc (by decide) (.bind hes (.pure rfl)))

/-! ### Conditionals and loops -/

/-- In the block dialect a word that `closesConstruct` ends a statement and is not gone past. -/
theorem gives_endClosed {what : Expectation} (hd : d.isBlock = true)
    (h : closesConstruct S.kind = true) : Gives d (endStatement d what) S () S := by
  have hne : S.kind ≠ .punct .semicolon := by
    intro hk
    rw [hk] at h
    exact absurd h (by decide)
  refine .take_no hne (by decide) (.kind ?_)
  rw [if_pos (by simp [hd, h])]
  exact .pure rfl

theorem gives_someNames {ns : List String} (hns : Gives d (names g) S ns S') (hne : ns ≠ []) :
    Gives d (someNames g) S ns S' := by
  refine .bind hns ?_
  rw [if_neg (by simpa using hne)]
  exact .pure rfl

/-- The header of a loop over a collection, by what `Perhaps` and `Flag` say is there. -/
theorem gives_loopHeader {kw : Option VarKeyword} {b : Bool} {ns : List String} {e : Expr}
    (hk : Perhaps varKeyword? S kw S₁) (ho : Flag (.punct .lbrack) S₁ b S₂)
    (hns : Gives d (names g) S₂ ns S₃) (hne : ns ≠ []) (hc : PassesIf (.punct .rbrack) b S₃ S₄)
    (h : Passes S₄ (.keyword .ofKw) S₅) (he : Gives d (expr d g) S₅ e S') :
    Gives d (loopHeader d g) S (kw, ns, b, e) S' := by
  have hnames : Gives d (loopNames g b) S₂ ns S₄ := by
    refine .bind (gives_someNames hns hne) ?_
    cases hc with
    | yes hc => exact .pass hc (by decide) (.pure rfl)
    | no => exact .pure rfl
  -- from the opening bracket on
  have hrest : Gives d (loopHeaderFrom d g kw) S₁ (kw, ns, b, e) S' :=
    .flag ho (by decide) (.bind hnames (.pass h (by decide) (.bind he (.pure rfl))))
  rw [loopHeader_eq]
  refine .kind ?_
  -- with a declaring word the parser goes past it, and without one it goes on at once
  cases hk with
  | some hp hk =>
    obtain ⟨t, ht⟩ := hp
    rw [ht.kind_eq, hk]
    exact .skip ⟨t, ht⟩ (by rintro rfl; simp [varKeyword?] at hk) hrest
  | none hk =>
    rw [hk]
    exact hrest

/-! ### Statements -/

theorem gives_throw {e : Expr} (h : Passes S (.keyword .throwKw) S₁)
    (he : Gives d (expr d g) S₁ e S₂) (hs : ∀ what, Gives d (endStatement d what) S₂ () S') :
    Gives d (statement? d g) S (some (.throw e)) S' := by
  obtain ⟨t, ht⟩ := h
  refine .kind ?_
  simp only [ht.kind_eq]
  exact .skip ⟨t, ht⟩ (by decide) (.bind he (.bind (hs _) (.pure rfl)))

/-- A `return` has no value where nothing follows that `startsExpression`. -/
theorem gives_retNone (h : Passes S (.keyword .returnKw) S₁)
    (hk : startsExpression d S₁.kind = false)
    (hs : ∀ what, Gives d (endStatement d what) S₁ () S') :
    Gives d (statement? d g) S (some (.ret none)) S' := by
  obtain ⟨t, ht⟩ := h
  refine .kind ?_
  simp only [ht.kind_eq]
  refine .skip ⟨t, ht⟩ (by decide) (.kind ?_)
  rw [if_neg (by simp [hk])]
  exact .bind (.pure rfl) (.bind (hs _) (.pure rfl))

theorem gives_retSome {e : Expr} (h : Passes S (.keyword .returnKw) S₁)
    (hk : startsExpression d S₁.kind = true) (he : Gives d (expr d g) S₁ e S₂)
    (hs : ∀ what, Gives d (endStatement d what) S₂ () S') :
    Gives d (statement? d g) S (some (.ret (some e))) S' := by
  obtain ⟨t, ht⟩ := h
  refine .kind ?_
  simp only [ht.kind_eq]
  refine .skip ⟨t, ht⟩ (by decide) (.kind ?_)
  rw [if_pos hk]
  exact .bind he (.bind (.pure rfl) (.bind (hs _) (.pure rfl)))

/-- A statement that begins with the word of a conditional or of a loop: `statement?` goes past
the word and leaves the rest to one rule. -/
theorem gives_compound {k : TokenKind} {x : Parser Statement} {st : Statement}
    (hkx : k = .keyword .ifKw ∧ x = conditional d g ∨ k = .keyword .whileKw ∧ x = whileLoop d g ∨
      k = .keyword .forKw ∧ x = forLoop d g)
    (h : Passes S k S₁) (hx : Gives d x S₁ st S') : Gives d (statement? d g) S (some st) S' := by
  obtain ⟨t, ht⟩ := h
  refine .kind ?_
  rcases hkx with ⟨rfl, rfl⟩ | ⟨rfl, rfl⟩ | ⟨rfl, rfl⟩
  all_goals
    simp only [ht.kind_eq]
    exact .skip ⟨t, ht⟩ (by decide) (.bind hx (.pure rfl))

theorem gives_blockStatement {body : Block} (h : S.kind = d.blockOpen)
    (hb : ∀ context, Gives d (block d g context) S body S') :
    Gives d (statement? d g) S (some (.block body)) S' := by
  refine .kind ?_
  rw [h]
  cases d <;> exact .bind (hb _) (.pure rfl)

/-- An expression as a statement is chosen last by `statement?`, so it begins with none of the
words before. -/
theorem gives_exprStatement {e : Expr} (ho : S.kind ≠ d.blockOpen)
    (hk : startsExpression d S.kind = true) (he : Gives d (expr d g) S e S₁)
    (hs : ∀ what, Gives d (endStatement d what) S₁ () S') :
    Gives d (statement? d g) S (some (.expr e)) S' := by
  refine .kind ?_
  split
  -- the words that begin other statements begin no expression
  iterate 5
    · next hkind =>
      rw [hkind] at hk
      cases d <;> exact absurd hk (by decide)
  · rw [if_neg ho, if_pos hk]
    exact .bind he (.bind (hs _) (.pure rfl))

/-! ### Declarations -/

/-- The words before a declaration, by `Flag`, and the declaration itself. -/
theorem gives_declaration {exported isAsync : Bool} {x : Declaration}
    (he : Flag (.keyword .exportKw) S exported S₁) (ha : Flag (.keyword .asyncKw) S₁ isAsync S₂)
    (hword : isAsync = true → S₂.kind = d.functionWord)
    (hx : ∀ exportWord : Option Token, exportWord.isSome = exported →
      Gives d (declarationFrom d g exportWord isAsync) S₂ (some x) S') :
    Gives d (declaration? d g) S (some x) S' := by
  -- `export` is looked at before anything else, and kept to complain about it
  have hrest : ∀ exportWord : Option Token, exportWord.isSome = exported →
      Gives d (declarationAfter d g exportWord) S₁ (some x) S' := by
    intro exportWord hexport
    refine .flag ha (by decide) (.kind ?_)
    rw [if_neg (by simpa using hword)]
    exact hx exportWord hexport
  rw [declaration?_eq]
  cases he with
  | yes he =>
    obtain ⟨t, ht⟩ := he
    exact .is_yes ht.kind_eq (.advance ht (by decide) fun tok _ _ => hrest (some tok) rfl)
  | no he => exact .is_no he (hrest none rfl)

theorem gives_functionDeclaration {exported isAsync : Bool} {n : String} {ps : List String}
    {body : Block} (he : Flag (.keyword .exportKw) S exported S₁)
    (ha : Flag (.keyword .asyncKw) S₁ isAsync S₂) (h : Passes S₂ d.functionWord S₃)
    (hn : Takes S₃ .symbol n S₄) (hp : Gives d (signature g) S₄ ps S₅)
    (hb : ∀ context, Gives d (block d g context) S₅ body S') :
    Gives d (declaration? d g) S (some (.function n ps body exported isAsync)) S' := by
  obtain ⟨t, ht⟩ := h
  refine gives_declaration he ha (fun _ => ht.kind_eq) fun exportWord hexport => .kind ?_
  rw [ht.kind_eq, if_neg (by simp), if_pos rfl]
  refine .bind (.skip ⟨t, ht⟩ (by simp) (.consume hn (by decide) fun tok htext => ?_)) (.pure rfl)
  exact .bind hp (.bind (hb _) (.pure (by rw [htext, hexport])))

/-- The words that `varKeyword?` knows are no others. -/
theorem varKeyword?_ne (d : Dialect) {k : TokenKind} {kw : VarKeyword}
    (h : varKeyword? k = some kw) : k ≠ .eof ∧ k ≠ .keyword .asyncKw ∧ k ≠ d.functionWord := by
  refine ⟨?_, ?_, ?_⟩
  all_goals
    rintro rfl
    cases d <;> simp [varKeyword?, Dialect.functionWord] at h

/-- Declared variables, from their word on, which no `async` may precede. -/
theorem gives_variableDeclaration {exported : Bool} {k : TokenKind} {kw : VarKeyword}
    {x : Declaration} (he : Flag (.keyword .exportKw) S exported S₁) (h : Passes S₁ k S₂)
    (hk : varKeyword? k = some kw)
    (hx : Gives d (variableDeclaration d g kw exported) S₁ x S') :
    Gives d (declaration? d g) S (some x) S' := by
  obtain ⟨t, ht⟩ := h
  obtain ⟨heof, hasync, hfunction⟩ := varKeyword?_ne d hk
  refine gives_declaration he (.no (by rwa [ht.kind_eq])) (fun h => absurd h (by decide))
    fun exportWord hexport => .kind ?_
  rw [ht.kind_eq, if_neg heof, if_neg hfunction, hk]
  subst hexport
  exact .bind hx (.pure rfl)

/-- `isPlainAssign` looks at the kind and the text of the token at hand. -/
theorem gives_isPlainAssign : Gives d isPlainAssign S (S.kind == .assign && S.text == "=") S := by
  intro r hr hS
  subst hr
  exact ⟨r, by rw [Reader.kind_tape, Reader.text_tape]; rfl, rfl, hS⟩

/-- Without an assignment sign a variable has no value. -/
theorem gives_var {kw : VarKeyword} {k : TokenKind} {n : String} {exported : Bool}
    (h : Passes S k S₁) (hk : varKeyword? k = some kw) (hn : Takes S₁ .symbol n S₂)
    (ha : ¬(S₂.kind = .assign ∧ S₂.text = "="))
    (hs : ∀ what, Gives d (endStatement d what) S₂ () S') :
    Gives d (variableDeclaration d g kw exported) S (.var kw n none exported) S' := by
  have hb : S₁.kind ≠ .punct .lbrack := by
    rw [hn.kind_eq]
    decide
  refine .skip h (varKeyword?_ne d hk).1 (.take_no hb (by decide) ?_)
  refine .consume hn (by decide) fun tok htext => .bind gives_isPlainAssign ?_
  rw [if_neg (by simpa using ha)]
  exact .bind (.pure rfl) (.bind (hs _) (.pure (by rw [htext])))

theorem gives_varValue {kw : VarKeyword} {k : TokenKind} {n : String} {v : Expr} {exported : Bool}
    (h : Passes S k S₁) (hk : varKeyword? k = some kw) (hn : Takes S₁ .symbol n S₂)
    (ha : Takes S₂ .assign "=" S₃) (hv : Gives d (assignment d g) S₃ v S₄)
    (hs : ∀ what, Gives d (endStatement d what) S₄ () S') :
    Gives d (variableDeclaration d g kw exported) S (.var kw n (some v) exported) S' := by
  have hb : S₁.kind ≠ .punct .lbrack := by
    rw [hn.kind_eq]
    decide
  refine .skip h (varKeyword?_ne d hk).1 (.take_no hb (by decide) ?_)
  refine .consume hn (by decide) fun tok htext => .bind gives_isPlainAssign ?_
  rw [if_pos (by simp [ha.kind_eq, ha.text_eq])]
  refine .skip ⟨_, ha⟩ (by decide) (.bind hv (.bind (.pure rfl) (.bind (hs _) (.pure ?_))))
  rw [htext]

theorem gives_vars {kw : VarKeyword} {k : TokenKind} {ns : List String} {v : Expr}
    {exported : Bool} (h : Passes S k S₁) (hk : varKeyword? k = some kw)
    (ho : Passes S₁ (.punct .lbrack) S₂) (hns : Gives d (names g) S₂ ns S₃) (hne : ns ≠ [])
    (hc : Passes S₃ (.punct .rbrack) S₄) (ha : Takes S₄ .assign "=" S₅)
    (hv : Gives d (assignment d g) S₅ v S₆) (hs : ∀ what, Gives d (endStatement d what) S₆ () S') :
    Gives d (variableDeclaration d g kw exported) S (.vars kw ns v exported) S' := by
  refine .skip h (varKeyword?_ne d hk).1 (.take_yes ho (by decide) ?_)
  refine .bind (gives_someNames hns hne) (.pass hc (by decide) (.bind gives_isPlainAssign ?_))
  rw [if_pos (by simp [ha.kind_eq, ha.text_eq])]
  exact .skip ⟨_, ha⟩ (by decide) (.bind hv (.bind (hs _) (.pure rfl)))

/-- A statement is read where none of the words of a declaration is found. -/
theorem gives_statementDeclaration {st : Statement} (he : S.kind ≠ .keyword .exportKw)
    (ha : S.kind ≠ .keyword .asyncKw) (hf : S.kind ≠ d.functionWord) (heof : S.kind ≠ .eof)
    (hk : varKeyword? S.kind = none) (hs : Gives d (statement? d g) S (some st) S') :
    Gives d (declaration? d g) S (some (.statement st)) S' := by
  refine gives_declaration (.no he) (.no ha) (fun h => absurd h (by decide))
    fun exportWord hexport => .kind ?_
  rw [if_neg heof, if_neg hf, hk]
  cases exportWord with
  | some tok => exact absurd hexport (by simp)
  | none => exact .bind hs (.pure rfl)

/-- `pendingComments` declares what is `waiting`. -/
theorem gives_pendingComments : Gives d pendingComments S (Comment.declare S.waiting) S.flush := by
  refine .takeComments ?_
  cases S.waiting with
  | nil => exact .pure rfl
  | cons c cs => exact .pure rfl

/-- Where no token `startsDeclaration`, none is read. -/
theorem gives_noDeclaration (h : startsDeclaration d S.kind = false) :
    Gives d (declaration? d g) S none S := by
  simp only [startsDeclaration, startsStatement, Bool.or_eq_false_iff, beq_eq_false_iff_ne, ne_eq,
    Option.isSome_eq_false_iff, Option.isNone_iff_eq_none] at h
  obtain ⟨⟨⟨⟨⟨he, ha⟩, hf⟩, hv⟩, hopen, hs⟩, hx⟩ := h
  refine .is_no he ?_
  refine .bind (.pure rfl) (.flag (.no ha) (by decide) (.kind ?_))
  rw [if_neg (by simp)]
  refine .kind ?_
  rw [if_neg hf, hv]
  by_cases heof : S.kind = .eof
  · rw [if_pos heof]
    exact .pure rfl
  · rw [if_neg heof]
    refine .bind (b := none) (.kind ?_) (.pure rfl)
    split <;> simp_all
    exact .pure rfl

theorem gives_modulePath {p : String} (hf : Passes S (.keyword .fromKw) S₁)
    (hp : Takes S₁ .string p S') : Gives d modulePath S p S' :=
  .pass hf (by decide) (.consume hp (by decide) fun _ htext => .pure htext)

/-! ## The rules together -/

/-- The rule for a `Phrase` gives a tree and leaves a tape. -/
def Runs (d : Dialect) (g : Grammar) : (φ : Phrase) → Tape → φ.Out → Tape → Prop
  | .names, S, a, S' => Gives d (names g) S a S'
  | .block, S, a, S' => ∀ context, Gives d (block d g context) S a S'
  | .signature, S, a, S' => Gives d (signature g) S a S'
  | .arguments, S, a, S' => GivesArguments d g S a S'
  | .primary, S, a, S' => Gives d (primary d g) S a S'
  | .pathFrom e, S, a, S' => Gives d (pathFrom g e) S a S'
  | .memberFrom e, S, a, S' => Gives d (memberFrom g e) S a S'
  | .member, S, a, S' => Gives d (member d g) S a S'
  | .step, S, a, S' => Gives d (step d g) S a S'
  | .unary, S, a, S' => Gives d (unary d g) S a S'
  | .climbFrom b e, S, a, S' => Gives d (climbFrom g b e) S a S'
  | .climb b, S, a, S' => Gives d (climb d g b) S a S'
  | .assignment, S, a, S' => Gives d (assignment d g) S a S'
  | .sequenceFrom e, S, a, S' => Gives d (sequenceFrom g e) S a S'
  | .expr, S, a, S' => Gives d (expr d g) S a S'
  | .elements close b, S, a, S' => Gives d (elements d g close b) S a S'
  | .entry, S, a, S' => Gives d (entry d g) S a S'
  | .entries, S, a, S' => Gives d (entries d g) S a S'
  | .endStatement, S, a, S' => ∀ what, Gives d (endStatement d what) S a S'
  | .conditional, S, a, S' => Gives d (conditional d g) S a S'
  | .loopHeader, S, a, S' => Gives d (loopHeader d g) S a S'
  | .statement, S, a, S' => Gives d (statement? d g) S (some a) S'
  | .declaration, S, a, S' => Gives d (declaration? d g) S (some a) S'
  | .declarations, S, a, S' => Gives d (declarations d g) S a S'
  | .importedNames, S, a, S' => Gives d (importedNames g) S a S'
  | .imports, S, a, S' => Gives d (imports d g) S a S'

/-- The `Grammar` that rules are built on gives a tree and leaves a tape, for the phrases that
it has parsers for. -/
def Enters (d : Dialect) (g : Grammar) : (φ : Phrase) → Tape → φ.Out → Tape → Prop
  | .names, S, a, S' => Gives d g.names S a S'
  | .pathFrom e, S, a, S' => Gives d (g.pathFrom e) S a S'
  | .memberFrom e, S, a, S' => Gives d (g.memberFrom e) S a S'
  | .unary, S, a, S' => Gives d g.unary S a S'
  | .climbFrom b e, S, a, S' => Gives d (g.climbFrom b e) S a S'
  | .climb b, S, a, S' => Gives d (g.climb b) S a S'
  | .assignment, S, a, S' => Gives d g.assignment S a S'
  | .sequenceFrom e, S, a, S' => Gives d (g.sequenceFrom e) S a S'
  | .expr, S, a, S' => Gives d g.expr S a S'
  | .elements close b, S, a, S' => Gives d (g.elements close b) S a S'
  | .entries, S, a, S' => Gives d g.entries S a S'
  | .conditional, S, a, S' => Gives d g.conditional S a S'
  | .declarations, S, a, S' => Gives d g.declarations S a S'
  | .imports, S, a, S' => Gives d g.imports S a S'
  | _, _, _, _ => True

/-- In every `Grammar.ofDepth` that is deep enough, the rule for a phrase gives a tree and
leaves a tape. The end of the text has to be among what is left. -/
def Completes (d : Dialect) (φ : Phrase) (S : Tape) (a : φ.Out) (S' : Tape) : Prop :=
  ∀ n, 1 ≤ S'.tokens → S.tokens ≤ n + 1 → Runs d (Grammar.ofDepth d n) φ S a S'

/-- With a token less, the rule may be entered from the one above it, which has gone past that
token. -/
theorem Completes.enters {φ : Phrase} {a : φ.Out} {n : Nat} (h : Completes d φ S a S')
    (hr : Reads d φ S a S') (hpos : 1 ≤ S'.tokens) (hn : S.tokens ≤ n) :
    Enters d (Grammar.ofDepth d n) φ S a S' := by
  have hle := hr.tokens_le
  obtain ⟨m, rfl⟩ : ∃ m, n = m + 1 := ⟨n - 1, by omega⟩
  have hm := h m hpos hn
  cases φ <;> first | exact hm | trivial

end Rules

open Rules Parser

/-- A `.statement` begins with a token. -/
theorem Reads.kind_ne_eof {d : Dialect} {S S' : Tape} {st : Statement}
    (h : Reads d .statement S st S') : S.kind ≠ .eof := by
  have hpasses : ∀ {k : TokenKind} {S₁ : Tape}, Passes S k S₁ → k ≠ .eof → S.kind ≠ .eof := by
    rintro k S₁ ⟨t, ht⟩ hk
    rwa [ht.kind_eq]
  cases h with
  | ifStatement h _ | braceWhile _ h _ _ _ _ | blockWhile _ h _ _ | braceFor _ h _ _ _ _
  | blockFor _ h _ _ | throw h _ _ | retNone h _ _ | retSome h _ _ _ =>
    exact hpasses h (by decide)
  | blockStatement h =>
    cases h with
    | block h _ _ => exact hpasses h (by simp)
  | exprStatement _ hk _ _ =>
    intro heof
    rw [heof] at hk
    cases d <;> exact absurd hk (by decide)

/-- What `Reads` derives is read, in every grammar that is as deep as there are tokens ahead. -/
theorem Reads.completes {d : Dialect} {φ : Phrase} {S S' : Tape} {a : φ.Out}
    (h : Reads d φ S a S') : Rules.Completes d φ S a S' := by
  induction h with
  -- names
  | namesNone h => exact fun n _ _ => .is_no h (.pure rfl)
  | namesLast h hc =>
    exact fun n _ _ => .is_yes h.kind_eq (.advance h (by decide) fun tok _ htext =>
      .take_no hc (by decide) (.pure (by rw [htext])))
  | namesMore h hc hns ih =>
    exact fun n hpos hn => .is_yes h.kind_eq (.advance h (by decide) fun tok _ htext =>
      .take_yes hc (by decide) (.bind (ih.enters hns hpos (by grind)) (.pure (by rw [htext]))))
  -- blocks and parentheses
  | block h hb hc ih =>
    exact fun n hpos hn _ => gives_block h (ih.enters hb (by grind) (by grind)) hc
  | signature h hp hc ih =>
    exact fun n hpos hn => gives_signature h (ih.enters hp (by grind) (by grind)) hc
  | arguments h he hc ih =>
    exact fun n hpos hn => ⟨_, _, _, _, rfl, h, ih.enters he (by grind) (by grind), hc⟩
  -- names and literals
  | symbol h => exact fun n _ _ => gives_symbol h
  | fixnum h hr => exact fun n _ _ => gives_fixnum h hr
  | boolean h | flonum h | string h | regexp h =>
    exact fun n _ _ => .current h fun tok hk ht => by
      simp only [hk, ht]
      exact gives_literal ⟨_, h⟩ (by decide)
  -- what stands between brackets
  | object h he hc ih =>
    exact fun n hpos hn => gives_object h (ih.enters he (by grind) (by grind)) hc
  | array h he hc ih =>
    exact fun n hpos hn => gives_array h (ih.enters he (by grind) (by grind)) hc
  | grouping h ha ih => exact fun n hpos hn => gives_grouping (ih n hpos hn) ha
  | list h ha hne htwo ih => exact fun n hpos hn => gives_list (ih n hpos hn) ha hne htwo
  -- functions
  | functionNamed h hn hp hb ihp ihb =>
    exact fun n hpos hn' => gives_functionNamed h hn (ihp n (by grind) (by grind))
      (ihb n hpos (by grind))
  | functionBare h hn hp hb ihp ihb =>
    exact fun n hpos hn' => gives_functionBare h hn (ihp n (by grind) (by grind))
      (ihb n hpos (by grind))
  | arrow h ha ho hb ih ihb =>
    exact fun n hpos hn => gives_arrow (ih n (by grind) hn) ha ho (ihb.enters hb hpos (by grind))
  | arrowBlock h ha hb ih ihb =>
    exact fun n hpos hn => gives_arrowBlock (ih n (by grind) hn) ha hb.kind_of_block
      (ihb n hpos (by grind))
  -- values and what follows them
  | pathEnd h => exact fun n _ _ => .take_no h (by decide) (.pure rfl)
  | pathMore h hn hk hx ih =>
    exact fun n hpos hn' => gives_pathMore h hn hk (ih.enters hx hpos (by grind))
  | memberEnd h => exact fun n _ _ => gives_memberEnd h
  | memberCall ho h hx ih ihx =>
    have := h.tokens_lt rfl
    exact fun n hpos hn => gives_memberCall ho (ih n (by grind) hn) (ihx.enters hx hpos (by grind))
  | memberIndex ho h hp hc hx ihp ihx =>
    exact fun n hpos hn => gives_memberIndex ho h (ihp.enters hp (by grind) (by grind)) hc
      (ihx.enters hx hpos (by grind))
  | memberDot ho h hn hk hx ih =>
    exact fun n hpos hn' => gives_memberDot ho h hn hk (ih.enters hx hpos (by grind))
  | newBare h hn ht hp ih =>
    exact fun n hpos hn' => gives_newBare h hn (ih n hpos (by grind)) ht.isSymbolPath hp
  | newCall h hn ht ha hx iht iha ihx =>
    exact fun n hpos hn' => gives_newCall h hn (iht n (by grind) (by grind)) ht.isSymbolPath
      (iha n (by grind) (by grind)) ha.isList (ihx n hpos (by grind))
  | member h he hx ihe ihx =>
    exact fun n hpos hn => .is_no h (.bind (ihe n (by grind) hn) (ihx n hpos (by grind)))
  -- operators
  | stepNone he h ih => exact fun n hpos hn => gives_stepNone (ih n hpos hn) h
  | stepSome he h hk ho ih => exact fun n hpos hn => gives_stepSome (ih n (by grind) hn) h hk ho
  | unaryNone h he ih => exact fun n hpos hn => gives_unaryNone h (ih n hpos hn)
  | unarySome h hk he ho ih =>
    exact fun n hpos hn => gives_unarySome h hk (ih.enters he hpos (by grind)) ho
  | climbEnd h => exact fun n _ _ => gives_climbEnd h
  | climbMore h hk hb hl hu hr ho hx ihr ihx =>
    exact fun n hpos hn => gives_climbMore h hk hb hl hu (ihr.enters hr (by grind) (by grind)) ho
      (ihx.enters hx hpos (by grind))
  | climb he hx ihe ihx =>
    exact fun n hpos hn => .bind (ihe n (by grind) hn) (ihx n hpos (by grind))
  | assignmentNone he ha hq ih => exact fun n hpos hn => gives_assignmentNone (ih n hpos hn) ha hq
  | assignmentSome hl h ht hop ho hr ihl ihr =>
    exact fun n hpos hn => gives_assignmentSome (ihl n (by grind) hn) h ht hop ho
      (ihr.enters hr hpos (by grind))
  | ternary ht h ho hy hc hn iht ihy ihn =>
    exact fun n hpos hn' => gives_ternary (iht n (by grind) hn') h ho
      (ihy.enters hy (by grind) (by grind)) hc (ihn.enters hn hpos (by grind))
  | sequenceEnd h => exact fun n _ _ => .take_no h (by decide) (.pure rfl)
  | sequenceMore h hr hx ihr ihx =>
    exact fun n hpos hn => gives_sequenceMore h (ihr.enters hr (by grind) (by grind))
      (ihx.enters hx hpos (by grind))
  | expr he hx ihe ihx =>
    exact fun n hpos hn => .bind (ihe n (by grind) hn) (ihx n hpos (by grind))
  -- elements and entries
  | elementsNone h => exact fun n _ _ => gives_elementsNone h
  | elementsLast h he hc ih => exact fun n hpos hn => gives_elementsLast h (ih n hpos hn) hc
  | elementsMore h he hc hes ihe ihes =>
    exact fun n hpos hn => gives_elementsMore h (ihe n (by grind) hn) hc
      (ihes.enters hes hpos (by grind))
  | entryShort h hk hc => exact fun n _ _ => gives_entryShort h hk hc
  | entryPair h hk hc hv ih =>
    exact fun n hpos hn => gives_entryPair h hk hc (ih n hpos (by grind))
  | entriesNone h => exact fun n _ _ => gives_entriesNone h
  | entriesLast h he hc ih => exact fun n hpos hn => gives_entriesLast h (ih n hpos hn) hc
  | entriesMore h he hc hes ihe ihes =>
    exact fun n hpos hn => gives_entriesMore h (ihe n (by grind) hn) hc
      (ihes.enters hes hpos (by grind))
  -- conditionals and loops
  | endSemicolon h => exact fun n _ _ _ => .take_yes h (by decide) (.pure rfl)
  | endClosed hd h => exact fun n _ _ _ => gives_endClosed hd h
  | braceIf hd h ht hc hb he iht ihb =>
    subst hd
    exact fun n hpos hn => .pass h (by decide) (.bind (iht n (by grind) (by grind))
      (.pass hc (by decide) (.bind (ihb n hpos (by grind) _)
        (.take_no he (by decide) (.pure rfl)))))
  | braceIfElse hd h ht hc hb he hi ho iht ihb iho =>
    subst hd
    exact fun n hpos hn => .pass h (by decide) (.bind (iht n (by grind) (by grind))
      (.pass hc (by decide) (.bind (ihb n (by grind) (by grind) _) (.take_yes he (by decide)
        (.take_no hi (by decide) (.bind (iho n hpos (by grind) _) (.pure rfl)))))))
  | braceIfElseIf hd h ht hc hb he hi ho iht ihb iho =>
    subst hd
    exact fun n hpos hn => .pass h (by decide) (.bind (iht n (by grind) (by grind))
      (.pass hc (by decide) (.bind (ihb n (by grind) (by grind) _) (.take_yes he (by decide)
        (.take_yes hi (by decide) (.bind (iho.enters ho hpos (by grind)) (.pure rfl)))))))
  | blockIf hd ht h hb he iht ihb =>
    subst hd
    obtain ⟨w, hw⟩ := he
    exact fun n hpos hn => .bind (iht n (by grind) hn) (.pass h (by decide)
      (.bind (ihb.enters hb (by grind) (by grind))
        (.take_no (by rw [hw.kind_eq]; decide) (by decide)
          (.take_no (by rw [hw.kind_eq]; decide) (by decide)
            (.pass ⟨w, hw⟩ (by decide) (.pure rfl))))))
  | blockIfElse hd ht h hb he ho hc iht ihb iho =>
    subst hd
    obtain ⟨w, hw⟩ := he
    exact fun n hpos hn => .bind (iht n (by grind) hn) (.pass h (by decide)
      (.bind (ihb.enters hb (by grind) (by grind))
        (.take_no (by rw [hw.kind_eq]; decide) (by decide) (.take_yes ⟨w, hw⟩ (by decide)
          (.bind (iho.enters ho (by grind) (by grind)) (.pass hc (by decide) (.pure rfl)))))))
  | blockIfElsif hd ht h hb he ho iht ihb iho =>
    subst hd
    exact fun n hpos hn => .bind (iht n (by grind) hn) (.pass h (by decide)
      (.bind (ihb.enters hb (by grind) (by grind)) (.take_yes he (by decide)
        (.bind (iho.enters ho hpos (by grind)) (.pure rfl)))))
  | loopHeader hk ho hns hne hc h he ihns ihe =>
    exact fun n hpos hn => gives_loopHeader hk ho (ihns n (by grind) (by grind)) hne hc h
      (ihe n hpos (by grind))
  -- statements
  | ifStatement h hs ih =>
    exact fun n hpos hn => gives_compound (.inl ⟨rfl, rfl⟩) h (ih n hpos (by grind))
  | braceWhile hd h ho ht hc hb iht ihb =>
    subst hd
    exact fun n hpos hn => gives_compound (.inr (.inl ⟨rfl, rfl⟩)) h (.pass ho (by decide)
      (.bind (iht n (by grind) (by grind)) (.pass hc (by decide)
        (.bind (ihb n hpos (by grind) _) (.pure rfl)))))
  | blockWhile hd h ht hb iht ihb =>
    subst hd
    exact fun n hpos hn => gives_compound (.inr (.inl ⟨rfl, rfl⟩)) h
      (.bind (iht n (by grind) (by grind)) (.bind (ihb n hpos (by grind) _) (.pure rfl)))
  | braceFor hd h ho hh hc hb ihh ihb =>
    subst hd
    exact fun n hpos hn => gives_compound (.inr (.inr ⟨rfl, rfl⟩)) h (.pass ho (by decide)
      (.bind (ihh n (by grind) (by grind)) (.pass hc (by decide)
        (.bind (ihb n hpos (by grind) _) (.pure rfl)))))
  | blockFor hd h hh hb ihh ihb =>
    subst hd
    exact fun n hpos hn => gives_compound (.inr (.inr ⟨rfl, rfl⟩)) h
      (.bind (ihh n (by grind) (by grind)) (.bind (ihb n hpos (by grind) _) (.pure rfl)))
  | throw h he hs ihe ihs =>
    exact fun n hpos hn => gives_throw h (ihe n (by grind) (by grind)) (ihs n hpos (by grind))
  | retNone h hk hs ih => exact fun n hpos hn => gives_retNone h hk (ih n hpos (by grind))
  | retSome h hk he hs ihe ihs =>
    exact fun n hpos hn => gives_retSome h hk (ihe n (by grind) (by grind)) (ihs n hpos (by grind))
  | blockStatement hb ih =>
    exact fun n hpos hn => gives_blockStatement hb.kind_of_block (ih n hpos hn)
  | exprStatement ho hk he hs ihe ihs =>
    exact fun n hpos hn => gives_exprStatement ho hk (ihe n (by grind) hn) (ihs n hpos (by grind))
  -- declarations
  | function he ha h hn hp hb ihp ihb =>
    exact fun n hpos hn' => gives_functionDeclaration he ha h hn (ihp n (by grind) (by grind))
      (ihb n hpos (by grind))
  | var he h hk hn ha hs ih =>
    exact fun n hpos hn' => gives_variableDeclaration he h hk
      (gives_var h hk hn ha (ih n hpos (by grind)))
  | varValue he h hk hn ha hv hs ihv ihs =>
    exact fun n hpos hn' => gives_variableDeclaration he h hk
      (gives_varValue h hk hn ha (ihv n (by grind) (by grind)) (ihs n hpos (by grind)))
  | vars he h hk ho hns hne hc ha hv hs ihns ihv ihs =>
    exact fun n hpos hn => gives_variableDeclaration he h hk
      (gives_vars h hk ho (ihns n (by grind) (by grind)) hne hc ha (ihv n (by grind) (by grind))
        (ihs n hpos (by grind)))
  | statement he ha hf hk hs ih =>
    exact fun n hpos hn => gives_statementDeclaration he ha hf hs.kind_ne_eof hk (ih n hpos hn)
  | declarationsEnd h =>
    exact fun n _ _ => .bind gives_pendingComments (.bind (gives_noDeclaration (by simpa using h))
      (.pure rfl))
  | declarationsMore hx hxs ihx ihxs =>
    have := hx.tokens_lt rfl
    exact fun n hpos hn => .bind gives_pendingComments (.bind (ihx n (by grind) (by grind))
      (.bind (ihxs.enters hxs hpos (by grind)) (.pure rfl)))
  -- imports
  | importWhole h ha hn hf hp =>
    exact fun n _ _ => .take_yes h (by decide) (.pass ha (by decide)
      (.consume hn (by decide) fun tok htext => .bind (gives_modulePath hf hp)
        (.pure (by rw [htext]))))
  | importNames h hn hc hf hp ih =>
    obtain ⟨w, hw⟩ := h
    exact fun n hpos hn' => .take_no (by rw [hw.kind_eq]; decide) (by decide)
      (.pass ⟨w, hw⟩ (by decide) (.bind (ih.enters hn (by grind) (by grind))
        (.pass hc (by decide) (.bind (gives_modulePath hf hp) (.pure rfl)))))
  | importsNone h => exact fun n _ _ => .take_no h (by decide) (.pure rfl)
  | importsMore h hi hs his ihi ihs ihis =>
    exact fun n hpos hn => .take_yes h (by decide) (.bind (ihi n (by grind) (by grind))
      (.bind (ihs n (by grind) (by grind) _) (.bind (ihis.enters his hpos (by grind)) (.pure rfl))))

theorem Reads.gives_endStatement {d : Dialect} {S S' : Tape} (h : Reads d .endStatement S () S')
    (what : Expectation) : Gives d (endStatement d what) S () S' := by
  cases h with
  | endSemicolon h => exact .take_yes h (by decide) (.pure rfl)
  | endClosed hd h => exact gives_endClosed hd h

theorem ModuleLine.gives {d : Dialect} {S S' : Tape} {m : Option String}
    (h : ModuleLine d S m S') : Gives d (moduleLine d) S m S' := by
  cases h with
  | none h => exact .take_no h (by decide) (.pure rfl)
  | some h hn hs =>
    refine .take_yes h (by decide) (.consume hn (by decide) fun tok htext => ?_)
    exact .bind (hs.gives_endStatement _) (.pure (by rw [htext]))

/-- A file that `ReadsProgram` derives is read, in the grammar that is as deep as there are
tokens ahead. -/
theorem ReadsProgram.run_program? {d : Dialect} {r : Reader} {trailer : Option String}
    {p : Program} (h : ReadsProgram d r.tape trailer p) (hr : r.tape.Proper d) :
    ∃ r', (program? d (Grammar.ofDepth d r.ahead.length) trailer).run r = .ok (some p, r') := by
  obtain @⟨S₁, S₂, S₃, S₄, m, cs, is, body, hne, hm, hcs, his, hb, rfl⟩ := h
  have htokens := r.tokens_tape
  -- no part of the file has more tokens before it than the file
  have hle₁ : S₁.tokens ≤ r.tape.tokens := by
    cases hm <;> grind
  have hle₂ : S₂.tokens ≤ S₁.tokens := by
    cases hcs <;> grind
  have himports : Gives d (imports d (Grammar.ofDepth d r.ahead.length)) S₂ is S₃ :=
    his.completes _ (Nat.le_trans (Nat.le_refl 1) hb.tokens_le) (by omega)
  have hbody : Gives d (declarations d (Grammar.ofDepth d r.ahead.length)) S₃ body _ :=
    hb.completes _ (Nat.le_refl 1) (by grind)
  have hrest : Gives d (program? d (Grammar.ofDepth d r.ahead.length) trailer) r.tape
      (some { leading := r.tape.waiting ++ cs, moduleName := m, imports := is, body,
              trailer := trailer.getD "" }) [.token .eof ""] := by
    refine .takeComments (.look fun tok hk _ => ?_)
    rw [if_neg ?_]
    · refine .bind hm.gives ?_
      cases hcs with
      | taken h =>
        exact .is_yes h (.takeComments (.bind himports (.bind hbody (.pass_end (.pure rfl)))))
      | kept h =>
        exact .is_no h (.bind (.pure rfl) (.bind himports (.bind hbody (.pass_end (.pure rfl)))))
    · rw [Tape.kind_flush] at hk
      simpa [Blank, Token.isEof, hk, Option.isSome_iff_ne_none] using hne
  obtain ⟨r', hrun, -⟩ := hrest r rfl hr
  exact ⟨r', hrun⟩

/-- On a `Blank` tape no program is read, in any grammar. -/
theorem Blank.run_program? {d : Dialect} {g : Grammar} {r : Reader} {trailer : Option String}
    (h : Blank r.tape trailer) (hr : r.tape.Proper d) :
    ∃ r', (program? d g trailer).run r = .ok (none, r') := by
  obtain ⟨heof, hwaiting, rfl⟩ := h
  have hgives : Gives d (program? d g none) r.tape none r.tape.flush := by
    refine .takeComments (.look fun tok hk _ => ?_)
    rw [Tape.kind_flush, heof] at hk
    rw [if_pos (by simp [Token.isEof, hk, hwaiting])]
    exact .pure rfl
  obtain ⟨r', hrun, -⟩ := hgives r rfl hr
  exact ⟨r', hrun⟩

end Diglot

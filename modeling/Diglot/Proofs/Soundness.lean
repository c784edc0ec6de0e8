import Diglot.Proofs.Derivation
import Diglot.Proofs.Outcome

/-!
# What is read is derived

Each rule of the grammar, run on a proper tape, either complains about the source or gives a tree
that is derived from the tape. The rules are gone through one by one; a rule may rely on the grammar
it is built on for readers with fewer tokens ahead, which is why a grammar as deep as the number of
tokens is never exhausted.

- `Serves`: a parser derives a phrase on every reader with few enough tokens ahead.
- `Grammar.Serves`: all parsers of a grammar do.
- `Grammar.serves_ofDepth`: a grammar of some depth serves readers with fewer tokens ahead.
-/

namespace Diglot

open Parser

variable {d : Dialect} {g : Grammar} {n : Nat}

/-! ## What the rules have to show -/

/-- A phrase has been read, by `Reads`, and the reader has not gone back. -/
structure Derives (d : Dialect) (φ : Phrase) (r : Reader) (a : φ.Out) (r' : Reader) : Prop where
  reads : Reads d φ r.tape a r'.tape
  proper : r'.tape.Proper d
  length : r'.ahead.length ≤ r.ahead.length

/-- A parser `Derives` a phrase from every reader with fewer than `n` tokens ahead. -/
def Serves (d : Dialect) (φ : Phrase) (n : Nat) (x : Parser φ.Out) : Prop :=
  ∀ r : Reader, r.tape.Proper d → r.ahead.length < n → x.Yields r (Derives d φ r)

/-- All parsers of a `Grammar` serve readers with fewer than `n` tokens ahead. -/
structure Grammar.Serves (d : Dialect) (g : Grammar) (n : Nat) : Prop where
  expr : Diglot.Serves d .expr n g.expr
  sequenceFrom : ∀ l, Diglot.Serves d (.sequenceFrom l) n (g.sequenceFrom l)
  assignment : Diglot.Serves d .assignment n g.assignment
  climb : ∀ b, Diglot.Serves d (.climb b) n (g.climb b)
  climbFrom : ∀ b l, Diglot.Serves d (.climbFrom b l) n (g.climbFrom b l)
  unary : Diglot.Serves d .unary n g.unary
  memberFrom : ∀ e, Diglot.Serves d (.memberFrom e) n (g.memberFrom e)
  pathFrom : ∀ e, Diglot.Serves d (.pathFrom e) n (g.pathFrom e)
  elements : ∀ k b, Diglot.Serves d (.elements k b) n (g.elements k b)
  entries : Diglot.Serves d .entries n g.entries
  names : Diglot.Serves d .names n g.names
  declarations : Diglot.Serves d .declarations n g.declarations
  conditional : Diglot.Serves d .conditional n g.conditional
  imports : Diglot.Serves d .imports n g.imports

/-- Before the end, the reader after the current token is `Proper` and has one token less ahead. -/
theorem Reader.advanced {r : Reader} {k : TokenKind} (hr : r.tape.Proper d)
    (hk : r.current.kind = k) (hne : k ≠ .eof) :
    Takes r.tape k r.current.text r.next.tape ∧ r.next.tape.Proper d ∧
      r.next.ahead.length < r.ahead.length := by
  subst hk
  have ht := takes_next hr hne
  have hpos := List.length_pos_iff.2 (ahead_ne_nil hr hne)
  refine ⟨ht, hr.takes hne ht, ?_⟩
  rw [length_ahead_next]
  omega

@[simp] theorem Dialect.blockOpen_ne_eof (d : Dialect) : d.blockOpen ≠ .eof := by
  cases d <;> decide

@[simp] theorem Dialect.blockClose_ne_eof (d : Dialect) : d.blockClose ≠ .eof := by
  cases d <;> decide

@[simp] theorem Dialect.functionWord_ne_eof (d : Dialect) : d.functionWord ≠ .eof := by
  cases d <;> decide

namespace Rules

/-! ## Names, blocks and parentheses -/

/-- Each rule serves readers with one token more ahead than its grammar does. This one, `names`,
goes past a name and a comma before it turns again. -/
theorem serves_names (hg : g.Serves d n) : Serves d .names (n + 1) (names g) := by
  intro r hr hn
  simp only [names, yields_bind, yields_is, yields_cond, cond_true, cond_false, yields_advance,
    yields_take, yields_pure]
  refine ⟨fun hk => ?_, fun hk => ⟨.namesNone (by simpa using hk), hr, Nat.le_refl _⟩⟩
  obtain ⟨ht, hr₁, hl₁⟩ := r.advanced hr hk (by decide)
  refine ⟨fun hc => ?_, fun hc => ⟨.namesLast ht (by simpa using hc), hr₁, by omega⟩⟩
  obtain ⟨ht₂, hr₂, hl₂⟩ := r.next.advanced hr₁ hc (by decide)
  refine (hg.names _ hr₂ (by omega)).mono ?_
  rintro ns r₃ ⟨hns, hr₃, hl₃⟩
  exact ⟨.namesMore ht ⟨_, ht₂⟩ hns, hr₃, by omega⟩

/-- `block` goes past the opening mark before it reads what stands within. -/
theorem serves_block (hg : g.Serves d n) (context : BlockContext) :
    Serves d .block (n + 1) (block d g context) := by
  intro r hr hn
  simp only [block, yields_bind, yields_consume, yields_pure]
  intro hk
  obtain ⟨ht, hr₁, hl₁⟩ := r.advanced hr hk (by simp)
  refine (hg.declarations _ hr₁ (by omega)).mono ?_
  rintro body r₂ ⟨hb, hr₂, hl₂⟩ hk₂
  obtain ⟨ht₂, hr₃, hl₃⟩ := r₂.advanced hr₂ hk₂ (by simp)
  exact ⟨.block ⟨_, ht⟩ hb ⟨_, ht₂⟩, hr₃, by omega⟩

theorem serves_signature (hg : g.Serves d n) : Serves d .signature (n + 1) (signature g) := by
  intro r hr hn
  simp only [signature, yields_bind, yields_consume, yields_pure]
  intro hk
  obtain ⟨ht, hr₁, hl₁⟩ := r.advanced hr hk (by decide)
  refine (hg.names _ hr₁ (by omega)).mono ?_
  rintro ps r₂ ⟨hps, hr₂, hl₂⟩ hk₂
  obtain ⟨ht₂, hr₃, hl₃⟩ := r₂.advanced hr₂ hk₂ (by decide)
  exact ⟨.signature ⟨_, ht⟩ hps ⟨_, ht₂⟩, hr₃, by omega⟩

/-- So does `arguments` with the opening parenthesis. -/
theorem serves_arguments (hg : g.Serves d n) : Serves d .arguments (n + 1) (arguments g) := by
  intro r hr hn
  simp only [arguments, yields_bind, yields_consume, yields_pure]
  intro hk
  obtain ⟨ht, hr₁, hl₁⟩ := r.advanced hr hk (by decide)
  refine (hg.elements _ _ _ hr₁ (by omega)).mono ?_
  rintro ⟨es, comma⟩ r₂ ⟨hes, hr₂, hl₂⟩ hk₂
  obtain ⟨ht₂, hr₃, hl₃⟩ := r₂.advanced hr₂ hk₂ (by decide)
  exact ⟨.arguments ⟨_, ht⟩ hes ⟨_, ht₂⟩, hr₃, by omega⟩

/-! ## Operands -/

/-- `operand` lets through whatever is no arrow function, and complains otherwise. -/
@[simp] theorem yields_operand {r : Reader} {token : Token} {e : Expr}
    {Q : Expr → Reader → Prop} :
    Yields (operand token e) r Q ↔ (e.isArrow = false → Q e r) := by
  unfold operand
  rw [yields_cond]
  cases e.isArrow with
  | true => simp
  | false => simp

/-- `memberName` goes past a token that `namesMember`. -/
@[simp] theorem yields_memberName {r : Reader} {Q : Expr → Reader → Prop} :
    Yields memberName r Q ↔
      (r.current.kind.namesMember = true → Q (.symbol r.current.text) r.next) := by
  unfold memberName
  simp only [yields_bind, yields_kind, yields_cond]
  cases h : r.current.kind.namesMember with
  | true =>
    unfold TokenKind.namesMember at h
    simp [h]
  | false =>
    unfold TokenKind.namesMember at h
    simp [h]

/-- `arrowParams` gives the names that the parentheses of an arrow function held. -/
theorem yields_arrowParams {token : Token} {r : Reader} {Q : List String → Reader → Prop} :
    ∀ {es : List Expr}, (∀ ps, es = ps.map .symbol → Q ps r) →
      Yields (arrowParams token es) r Q := by
  intro es
  induction es generalizing Q with
  | nil => exact fun h => h [] rfl
  | cons e es ih =>
    intro h
    cases e with
    | symbol n =>
      simp only [arrowParams, yields_bind, yields_pure]
      exact ih fun ps hps => h (n :: ps) (by rw [hps]; rfl)
    | _ => exact ⟨_, rfl⟩

/-- `arrow` goes on from the parentheses that have been read before it. -/
theorem serves_arrow (hg : g.Serves d n) {r₀ r : Reader} {es : List Expr} {comma : Bool}
    (h₀ : Derives d .arguments r₀ (.list es comma) r) (hk : r.current.kind = .punct .arrow)
    (hn : r.ahead.length < n + 1) :
    (arrow d g es).Yields r (Derives d .primary r₀) := by
  simp only [arrow, yields_bind, yields_advance]
  obtain ⟨ht, hr₁, hl₁⟩ := r.advanced h₀.proper hk (by decide)
  refine yields_arrowParams ?_
  rintro ps rfl
  simp only [yields_bind, yields_is, yields_cond, cond_true, cond_false, yields_pure]
  refine ⟨fun hb => ?_, fun hb => ?_⟩
  · refine (serves_block hg _ _ hr₁ (by omega)).mono ?_
    rintro body r₂ ⟨hbody, hr₂, hl₂⟩
    exact ⟨.arrowBlock h₀.reads ⟨_, ht⟩ hbody, hr₂, by have := h₀.length; omega⟩
  · refine (hg.assignment _ hr₁ (by omega)).mono ?_
    rintro body r₂ ⟨hbody, hr₂, hl₂⟩
    exact ⟨.arrow h₀.reads ⟨_, ht⟩ (by simpa using hb) hbody, hr₂, by have := h₀.length; omega⟩

/-- `parenthesized` gives an `Expr.grouping`, an `Expr.list` or an arrow function, by what
stands within and after. -/
theorem serves_parenthesized (hg : g.Serves d n) {r : Reader} (hr : r.tape.Proper d)
    (hk : r.current.kind = .punct .lparen) (hn : r.ahead.length < n + 1) :
    (parenthesized d g).Yields r (Derives d .primary r) := by
  simp only [parenthesized, yields_bind, yields_advance, yields_consume, yields_is, yields_cond]
  obtain ⟨ht, hr₁, hl₁⟩ := r.advanced hr hk (by decide)
  refine (hg.elements _ _ _ hr₁ (by omega)).mono ?_
  rintro ⟨es, comma⟩ r₂ ⟨hes, hr₂, hl₂⟩ hk₂
  obtain ⟨ht₂, hr₃, hl₃⟩ := r₂.advanced hr₂ hk₂ (by decide)
  -- parentheses are read as a list first; what follows decides what they are
  have h₀ : Derives d .arguments r (.list es comma) r₂.next :=
    ⟨.arguments ⟨_, ht⟩ hes ⟨_, ht₂⟩, hr₃, by omega⟩
  -- an arrow makes them the parameters of a function
  refine ⟨fun ha => serves_arrow hg h₀ ha (by omega), fun ha => ?_⟩
  simp only [cond_false]
  split
  · exact ⟨_, rfl⟩
  · exact ⟨.grouping h₀.reads (by simpa using ha), hr₃, h₀.length⟩
  · next hnil hone =>
    refine ⟨.list h₀.reads (by simpa using ha) ?_ ?_, hr₃, h₀.length⟩
    · rintro rfl
      exact hnil rfl
    · rintro e rfl
      cases comma with
      | true => rfl
      | false => exact (hone e rfl rfl).elim

/-- `object` reads its entries between braces. -/
theorem serves_object (hg : g.Serves d n) {r : Reader} (hr : r.tape.Proper d)
    (hk : r.current.kind = .punct .lbrace) (hn : r.ahead.length < n + 1) :
    (object g).Yields r (Derives d .primary r) := by
  simp only [object, yields_bind, yields_advance, yields_consume, yields_pure]
  obtain ⟨ht, hr₁, hl₁⟩ := r.advanced hr hk (by decide)
  refine (hg.entries _ hr₁ (by omega)).mono ?_
  rintro es r₂ ⟨hes, hr₂, hl₂⟩ hk₂
  obtain ⟨ht₂, hr₃, hl₃⟩ := r₂.advanced hr₂ hk₂ (by decide)
  exact ⟨.object ⟨_, ht⟩ hes ⟨_, ht₂⟩, hr₃, by omega⟩

theorem serves_array (hg : g.Serves d n) {r : Reader} (hr : r.tape.Proper d)
    (hk : r.current.kind = .punct .lbrack) (hn : r.ahead.length < n + 1) :
    (array g).Yields r (Derives d .primary r) := by
  simp only [array, yields_bind, yields_advance, yields_consume, yields_pure]
  obtain ⟨ht, hr₁, hl₁⟩ := r.advanced hr hk (by decide)
  refine (hg.elements _ _ _ hr₁ (by omega)).mono ?_
  rintro ⟨es, comma⟩ r₂ ⟨hes, hr₂, hl₂⟩ hk₂
  obtain ⟨ht₂, hr₃, hl₃⟩ := r₂.advanced hr₂ hk₂ (by decide)
  exact ⟨.array ⟨_, ht⟩ hes ⟨_, ht₂⟩, hr₃, by omega⟩

/-- `functionLiteral` reads a function with or without a name. -/
theorem serves_functionLiteral (hg : g.Serves d n) {r : Reader} (hr : r.tape.Proper d)
    (hk : r.current.kind = d.functionWord) (hn : r.ahead.length < n + 1) :
    (functionLiteral d g).Yields r (Derives d .primary r) := by
  simp only [functionLiteral, yields_bind, yields_advance, yields_is, yields_cond, cond_true,
    cond_false, yields_pure]
  obtain ⟨ht, hr₁, hl₁⟩ := r.advanced hr hk (by simp)
  refine ⟨fun hname => ?_, fun hname => ?_⟩
  · obtain ⟨ht₂, hr₂, hl₂⟩ := r.next.advanced hr₁ hname (by decide)
    refine (serves_signature hg _ hr₂ (by omega)).mono ?_
    rintro ps r₃ ⟨hps, hr₃, hl₃⟩
    refine (serves_block hg _ _ hr₃ (by omega)).mono ?_
    rintro body r₄ ⟨hb, hr₄, hl₄⟩
    exact ⟨.functionNamed ⟨_, ht⟩ ht₂ hps hb, hr₄, by omega⟩
  · refine (serves_signature hg _ hr₁ (by omega)).mono ?_
    rintro ps r₃ ⟨hps, hr₃, hl₃⟩
    refine (serves_block hg _ _ hr₃ (by omega)).mono ?_
    rintro body r₄ ⟨hb, hr₄, hl₄⟩
    exact ⟨.functionBare ⟨_, ht⟩ (by simpa using hname) hps hb, hr₄, by omega⟩

/-- `primary` goes past the token by which it chooses, or leaves that to one of the rules above. -/
theorem serves_primary (hg : g.Serves d n) : Serves d .primary (n + 1) (primary d g) := by
  intro r hr hn
  simp only [primary, yields_bind, yields_current]
  -- a literal is one token, whatever its kind
  have hlit : ∀ {k : TokenKind} {v : Literal}, r.current.kind = k → k ≠ .eof →
      (∀ S, Takes r.tape k r.current.text S → Reads d .primary r.tape (.literal v) S) →
      (literal v).Yields r (Derives d .primary r) := by
    intro k v hk hne h
    obtain ⟨ht, hr₁, hl₁⟩ := r.advanced hr hk hne
    exact ⟨h _ ht, hr₁, by omega⟩
  split
  · exact serves_parenthesized hg hr ‹_› hn
  · exact serves_object hg hr ‹_› hn
  · exact serves_array hg hr ‹_› hn
  · next hk =>
    obtain ⟨ht, hr₁, hl₁⟩ := r.advanced hr hk (by decide)
    exact ⟨.symbol ht, hr₁, by omega⟩
  · exact hlit ‹_› (by decide) fun S ht => .boolean ht
  · unfold fixnum
    simp only [yields_ite, yields_complain, implies_true, and_true]
    exact fun hmax => hlit ‹_› (by decide) fun S ht => .fixnum ht hmax
  · exact hlit ‹_› (by decide) fun S ht => .flonum ht
  · exact hlit ‹_› (by decide) fun S ht => .string ht
  · exact hlit ‹_› (by decide) fun S ht => .regexp ht
  · exact ⟨_, rfl⟩
  · exact ⟨_, rfl⟩
  · simp only [yields_ite, yields_unexpected, implies_true, and_true]
    exact fun hk => serves_functionLiteral hg hr hk hn

/-! ## Values and operators -/

/-- `pathFrom` goes past a point and a name before it turns again. -/
theorem serves_pathFrom (hg : g.Serves d n) (e : Expr) :
    Serves d (.pathFrom e) (n + 1) (pathFrom g e) := by
  intro r hr hn
  simp only [pathFrom, yields_bind, yields_take, yields_cond, cond_true, cond_false,
    yields_memberName, yields_pure]
  refine ⟨fun hk => ?_, fun hk => ⟨.pathEnd (by simpa using hk), hr, Nat.le_refl _⟩⟩
  obtain ⟨ht, hr₁, hl₁⟩ := r.advanced hr hk (by decide)
  intro hname
  obtain ⟨ht₂, hr₂, hl₂⟩ := r.next.advanced hr₁ rfl (TokenKind.ne_eof_of_namesMember hname)
  simp only [Expr.binary?, Expr.isSymbol, if_true, yields_build_ok]
  refine (hg.pathFrom _ _ hr₂ (by omega)).mono ?_
  rintro x r₃ ⟨hx, hr₃, hl₃⟩
  exact ⟨.pathMore ⟨_, ht⟩ ht₂ hname hx, hr₃, by omega⟩

/-- What `construction` builds after `new` is in order: its target is a path and its arguments
are a list. -/
theorem serves_construction (hg : g.Serves d n) {r : Reader} (hr : r.tape.Proper d)
    (hk : r.current.kind = .keyword .newKw) (hn : r.ahead.length < n + 1) :
    (construction g).Yields r fun (e, bare) r' =>
      r'.tape.Proper d ∧ r'.ahead.length < r.ahead.length ∧
        cond bare (Reads d .member r.tape e r'.tape)
          (∀ x S, Reads d (.memberFrom e) r'.tape x S → Reads d .member r.tape x S) := by
  simp only [construction, yields_bind, yields_advance, yields_consume, yields_is, yields_cond,
    cond_true, cond_false]
  obtain ⟨ht, hr₁, hl₁⟩ := r.advanced hr hk (by decide)
  intro hname
  obtain ⟨ht₂, hr₂, hl₂⟩ := r.next.advanced hr₁ hname (by decide)
  refine (serves_pathFrom hg _ _ hr₂ (by omega)).mono ?_
  rintro t r₃ ⟨hpath, hr₃, hl₃⟩
  -- with arguments the value goes on like a call, and without them it ends there
  refine ⟨fun hp => ?_, fun hp => ?_⟩
  · refine (serves_arguments hg _ hr₃ (by omega)).mono ?_
    rintro args r₄ ⟨hargs, hr₄, hl₄⟩
    simp only [Expr.binary?, hpath.isSymbolPath, hargs.isList, Bool.not_true, Bool.false_eq_true,
      if_false, yields_build_ok, yields_pure, cond_false]
    exact ⟨hr₄, by omega, fun x S hx => .newCall ⟨_, ht⟩ ht₂ hpath hargs hx⟩
  · simp only [Expr.unary?, hpath.isSymbolPath, Bool.not_true, Bool.false_eq_true, and_false,
      if_false, yields_build_ok, yields_pure, cond_true]
    exact ⟨hr₃, by omega, .newBare ⟨_, ht⟩ ht₂ hpath (by simpa using hp)⟩

/-- `memberFrom` goes past the arguments, the index or the member before it turns again. -/
theorem serves_memberFrom (hg : g.Serves d n) (e : Expr) :
    Serves d (.memberFrom e) (n + 1) (memberFrom g e) := by
  intro r hr hn
  simp only [memberFrom, yields_bind, yields_kind]
  split
  · next hk =>
    simp only [yields_bind, yields_current, yields_operand]
    intro ho
    refine (serves_arguments hg _ hr (by omega)).mono ?_
    rintro args r₁ ⟨hargs, hr₁, hl₁⟩
    simp only [Expr.call?, hargs.isList, if_true, yields_build_ok]
    -- the parentheses have been gone past, so the grammar below may be entered
    have hlt : r₁.ahead.length < n := by
      have := hargs.tokens_lt rfl
      rw [r.tokens_tape, r₁.tokens_tape] at this
      omega
    refine (hg.memberFrom _ _ hr₁ hlt).mono ?_
    rintro x r₂ ⟨hx, hr₂, hl₂⟩
    exact ⟨.memberCall ho hargs hx, hr₂, by omega⟩
  · next hk =>
    simp only [yields_bind, yields_advance, yields_operand, yields_consume]
    obtain ⟨ht, hr₁, hl₁⟩ := r.advanced hr hk (by decide)
    intro ho
    refine (hg.expr _ hr₁ (by omega)).mono ?_
    rintro p r₂ ⟨hp, hr₂, hl₂⟩ hk₂
    obtain ⟨ht₂, hr₃, hl₃⟩ := r₂.advanced hr₂ hk₂ (by decide)
    refine (hg.memberFrom _ _ hr₃ (by omega)).mono ?_
    rintro x r₄ ⟨hx, hr₄, hl₄⟩
    exact ⟨.memberIndex ho ⟨_, ht⟩ hp ⟨_, ht₂⟩ hx, hr₄, by omega⟩
  · next hk =>
    simp only [yields_bind, yields_advance, yields_operand, yields_memberName]
    obtain ⟨ht, hr₁, hl₁⟩ := r.advanced hr hk (by decide)
    intro ho hname
    obtain ⟨ht₂, hr₂, hl₂⟩ := r.next.advanced hr₁ rfl (TokenKind.ne_eof_of_namesMember hname)
    simp only [Expr.binary?, Expr.isSymbol, if_true, yields_build_ok]
    refine (hg.memberFrom _ _ hr₂ (by omega)).mono ?_
    rintro x r₃ ⟨hx, hr₃, hl₃⟩
    exact ⟨.memberDot ho ⟨_, ht⟩ ht₂ hname hx, hr₃, by omega⟩
  · next h₁ h₂ h₃ =>
    refine ⟨.memberEnd ?_, hr, Nat.le_refl _⟩
    rw [Reader.kind_tape]
    unfold TokenKind.extendsValue
    split <;> simp_all

/-- `member` begins with `new` or with a primary, and goes on from there. -/
theorem serves_member (hg : g.Serves d n) : Serves d .member (n + 1) (member d g) := by
  intro r hr hn
  simp only [member, yields_bind, yields_is, yields_cond, cond_true, cond_false]
  refine ⟨fun hk => ?_, fun hk => ?_⟩
  · refine (serves_construction hg hr hk hn).mono ?_
    rintro ⟨e, bare⟩ r₁ ⟨hr₁, hl₁, he⟩
    cases bare with
    | true => exact ⟨he, hr₁, by omega⟩
    | false =>
      refine (serves_memberFrom hg e _ hr₁ (by omega)).mono ?_
      rintro x r₂ ⟨hx, hr₂, hl₂⟩
      exact ⟨he _ _ hx, hr₂, by omega⟩
  · refine (serves_primary hg _ hr hn).mono ?_
    rintro e r₁ ⟨he, hr₁, hl₁⟩
    refine (serves_memberFrom hg e _ hr₁ (by omega)).mono ?_
    rintro x r₂ ⟨hx, hr₂, hl₂⟩
    exact ⟨.member (by simpa using hk) he hx, hr₂, by omega⟩

/-- `step` reads a member and perhaps an operator after it. -/
theorem serves_step (hg : g.Serves d n) : Serves d .step (n + 1) (step d g) := by
  intro r hr hn
  simp only [step, yields_bind, yields_kind]
  refine (serves_member hg _ hr hn).mono ?_
  rintro e r₁ ⟨he, hr₁, hl₁⟩
  split
  · next op hop =>
    simp only [yields_bind, yields_advance, yields_operand, yields_pure]
    obtain ⟨ht, hr₂, hl₂⟩ := r₁.advanced hr₁ rfl (by rintro h; simp [h, stepOp?] at hop)
    exact fun ho => ⟨.stepSome he ⟨_, ht⟩ hop ho, hr₂, by omega⟩
  · next hop => exact ⟨.stepNone he (by simpa using hop), hr₁, hl₁⟩

/-- Operators that `unaryOp?` reads, all but `new`, take any operand. -/
theorem unary?_of_unaryOp? {k : TokenKind} {op : UnaryOp} (h : unaryOp? k = some op) (e : Expr) :
    Expr.unary? op e = .ok (.unary op e) := by
  unfold unaryOp? at h
  split at h <;> simp_all [Expr.unary?] <;> subst h <;> simp

/-- Operators that `infixOp?` reads between operands take any operands. -/
theorem binary?_of_infixOp? {k : TokenKind} {op : BinaryOp} (h : infixOp? k = some op)
    (l r : Expr) : Expr.binary? op l r = .ok (.binary op l r) := by
  unfold infixOp? at h
  split at h <;> simp_all <;> subst h <;> rfl

/-- So do assignments. -/
theorem binary?_of_assignment {op : BinaryOp} (h : op.precedence = .assignment) (l r : Expr) :
    Expr.binary? op l r = .ok (.binary op l r) := by
  cases op <;> first | rfl | exact absurd h (by decide)

/-- `unary` goes past an operator before it turns again. -/
theorem serves_unary (hg : g.Serves d n) : Serves d .unary (n + 1) (unary d g) := by
  intro r hr hn
  simp only [unary, yields_bind, yields_kind]
  split
  · next op hop =>
    simp only [yields_bind, yields_advance, yields_operand]
    obtain ⟨ht, hr₁, hl₁⟩ := r.advanced hr rfl (by rintro h; simp [h, unaryOp?] at hop)
    refine (hg.unary _ hr₁ (by omega)).mono ?_
    rintro e r₂ ⟨he, hr₂, hl₂⟩ ho
    rw [unary?_of_unaryOp? hop, yields_build_ok]
    exact ⟨.unarySome ⟨_, ht⟩ hop he ho, hr₂, by omega⟩
  · next hop =>
    refine (serves_step hg _ hr hn).mono ?_
    rintro e r₁ ⟨he, hr₁, hl₁⟩
    exact ⟨.unaryNone (by simpa using hop) he, hr₁, hl₁⟩

/-- `climbFrom` goes past an operator before it reads the right operand and climbs on. -/
theorem serves_climbFrom (hg : g.Serves d n) (b : Precedence) (l : Expr) :
    Serves d (.climbFrom b l) (n + 1) (climbFrom g b l) := by
  intro r hr hn
  simp only [climbFrom, yields_bind, yields_kind]
  split
  · next hop => exact ⟨.climbEnd (by simp [hop]), hr, Nat.le_refl _⟩
  · next op hop =>
    simp only [yields_ite, yields_pure, yields_bind, yields_advance, yields_operand,
      yields_complain, implies_true, true_and]
    refine ⟨fun hlt => ⟨.climbEnd (by simp [hop, hlt]), hr, Nat.le_refl _⟩, fun hge ho hu => ?_⟩
    obtain ⟨ht, hr₁, hl₁⟩ := r.advanced hr rfl (by rintro h; simp [h, infixOp?] at hop)
    refine (hg.climb _ _ hr₁ (by omega)).mono ?_
    rintro e r₂ ⟨he, hr₂, hl₂⟩ ho₂
    rw [binary?_of_infixOp? hop, yields_build_ok]
    refine (hg.climbFrom _ _ _ hr₂ (by omega)).mono ?_
    rintro x r₃ ⟨hx, hr₃, hl₃⟩
    exact ⟨.climbMore ⟨_, ht⟩ hop (Nat.le_of_not_lt hge) ho hu he ho₂ hx, hr₃, by omega⟩

theorem serves_climb (hg : g.Serves d n) (b : Precedence) :
    Serves d (.climb b) (n + 1) (climb d g b) := by
  intro r hr hn
  simp only [climb, yields_bind]
  refine (serves_unary hg _ hr hn).mono ?_
  rintro e r₁ ⟨he, hr₁, hl₁⟩
  refine (serves_climbFrom hg b e _ hr₁ (by omega)).mono ?_
  rintro x r₂ ⟨hx, hr₂, hl₂⟩
  exact ⟨.climb he hx, hr₂, by omega⟩

/-- `assignment` goes past the sign of an assignment or of a ternary before it turns again. -/
theorem serves_assignment (hg : g.Serves d n) : Serves d .assignment (n + 1) (assignment d g) := by
  intro r hr hn
  simp only [assignment, yields_bind, yields_kind]
  refine (serves_climb hg _ _ hr hn).mono ?_
  rintro l r₁ ⟨hl, hr₁, hl₁⟩
  split
  · next hk =>
    simp only [yields_bind, yields_advance, yields_operand]
    obtain ⟨ht, hr₂, hl₂⟩ := r₁.advanced hr₁ hk (by decide)
    -- the token is genuine, so that its text is the spelling of an assignment
    obtain ⟨op, hop, hspell⟩ := hr₁.genuine _ _ ht.mem
    have hparse : BinaryOp.ofSpelling? r₁.current.text = some op := by
      rw [← hspell]
      exact BinaryOp.ofSpelling?_spelling op
    simp only [BinaryOp.parse?, hparse, yields_build_ok]
    intro ho
    refine (hg.assignment _ hr₂ (by omega)).mono ?_
    rintro e r₃ ⟨he, hr₃, hl₃⟩
    rw [binary?_of_assignment hop, yields_build_ok]
    exact ⟨.assignmentSome hl ht hparse hop ho he, hr₃, by omega⟩
  · next hk =>
    simp only [yields_bind, yields_advance, yields_operand, yields_consume, yields_pure]
    obtain ⟨ht, hr₂, hl₂⟩ := r₁.advanced hr₁ hk (by decide)
    intro ho
    refine (hg.assignment _ hr₂ (by omega)).mono ?_
    rintro y r₃ ⟨hy, hr₃, hl₃⟩ hk₃
    obtain ⟨ht₃, hr₄, hl₄⟩ := r₃.advanced hr₃ hk₃ (by decide)
    refine (hg.assignment _ hr₄ (by omega)).mono ?_
    rintro e r₅ ⟨he, hr₅, hl₅⟩
    exact ⟨.ternary hl ⟨_, ht⟩ ho hy ⟨_, ht₃⟩ he, hr₅, by omega⟩
  · next ha hq =>
    exact ⟨.assignmentNone hl (by simpa using ha) (by simpa using hq), hr₁, hl₁⟩

/-- `sequenceFrom` goes past a comma before it turns again. -/
theorem serves_sequenceFrom (hg : g.Serves d n) (l : Expr) :
    Serves d (.sequenceFrom l) (n + 1) (sequenceFrom g l) := by
  intro r hr hn
  simp only [sequenceFrom, yields_bind, yields_take, yields_cond, cond_true, cond_false,
    yields_pure]
  refine ⟨fun hk => ?_, fun hk => ⟨.sequenceEnd (by simpa using hk), hr, Nat.le_refl _⟩⟩
  obtain ⟨ht, hr₁, hl₁⟩ := r.advanced hr hk (by decide)
  refine (hg.assignment _ hr₁ (by omega)).mono ?_
  rintro e r₂ ⟨he, hr₂, hl₂⟩
  simp only [Expr.binary?, yields_build_ok]
  refine (hg.sequenceFrom _ _ hr₂ (by omega)).mono ?_
  rintro x r₃ ⟨hx, hr₃, hl₃⟩
  exact ⟨.sequenceMore ⟨_, ht⟩ he hx, hr₃, by omega⟩

theorem serves_expr (hg : g.Serves d n) : Serves d .expr (n + 1) (expr d g) := by
  intro r hr hn
  simp only [expr, yields_bind]
  refine (serves_assignment hg _ hr hn).mono ?_
  rintro e r₁ ⟨he, hr₁, hl₁⟩
  refine (serves_sequenceFrom hg e _ hr₁ (by omega)).mono ?_
  rintro x r₂ ⟨hx, hr₂, hl₂⟩
  exact ⟨.expr he hx, hr₂, by omega⟩

/-! ## Elements and entries -/

/-- `elements` reads one element and goes past a comma before it turns again. -/
theorem serves_elements (hg : g.Serves d n) (close : TokenKind) (b : Bool) :
    Serves d (.elements close b) (n + 1) (elements d g close b) := by
  intro r hr hn
  simp only [elements, yields_bind, yields_kind, yields_ite, yields_pure, yields_take]
  refine ⟨fun hk => ⟨.elementsNone (by simpa using hk), hr, Nat.le_refl _⟩, fun hk => ?_⟩
  refine (serves_assignment hg _ hr hn).mono ?_
  rintro e r₁ ⟨he, hr₁, hl₁⟩
  refine ⟨fun hc => ?_, fun hc => ?_⟩
  · obtain ⟨ht, hr₂, hl₂⟩ := r₁.advanced hr₁ hc (by decide)
    simp only [forall_const, not_true_eq_false, false_implies, and_true]
    refine (hg.elements _ _ _ hr₂ (by omega)).mono ?_
    rintro ⟨es, comma⟩ r₃ ⟨hes, hr₃, hl₃⟩
    exact ⟨.elementsMore (by simpa using hk) he ⟨_, ht⟩ hes, hr₃, by omega⟩
  · simp only [Bool.false_eq_true, false_implies, not_false_eq_true, forall_const, true_and]
    exact ⟨.elementsLast (by simpa using hk) he (by simpa using hc), hr₁, hl₁⟩

/-- `entryKey` reads a key, which is one token. -/
theorem yields_entryKey {r : Reader} (hr : r.tape.Proper d) :
    entryKey.Yields r fun e r' => ∃ k t key, Takes r.tape k t r'.tape ∧
      Key.ofToken? t k = some key ∧ Key.ofExpr? e = some key ∧ r'.tape.Proper d ∧
      r'.ahead.length < r.ahead.length := by
  simp only [entryKey, literal, yields_bind, yields_current]
  split
  · next hk =>
    obtain ⟨ht, hr₁, hl₁⟩ := r.advanced hr hk (by decide)
    exact ⟨_, _, _, ht, rfl, rfl, hr₁, hl₁⟩
  · next hk =>
    obtain ⟨ht, hr₁, hl₁⟩ := r.advanced hr hk (by decide)
    exact ⟨_, _, _, ht, rfl, rfl, hr₁, hl₁⟩
  · exact ⟨_, rfl⟩

/-- `entry` reads a key and perhaps a value, of which `Entry.ofExpr?` makes the entry. -/
theorem serves_entry (hg : g.Serves d n) : Serves d .entry (n + 1) (entry d g) := by
  intro r hr hn
  simp only [entry, yields_bind, yields_take, yields_cond, cond_true, cond_false]
  refine (yields_entryKey hr).mono ?_
  rintro e r₁ ⟨k, t, key, ht, hkey, he, hr₁, hl₁⟩
  simp only [Entry.ofExpr?, he, yields_build_ok]
  refine ⟨fun hc => ?_, fun hc => ⟨.entryShort ht hkey (by simpa using hc), hr₁, by omega⟩⟩
  obtain ⟨ht₂, hr₂, hl₂⟩ := r₁.advanced hr₁ hc (by decide)
  refine (serves_assignment hg _ hr₂ (by omega)).mono ?_
  rintro v r₃ ⟨hv, hr₃, hl₃⟩
  exact ⟨.entryPair ht hkey ⟨_, ht₂⟩ hv, hr₃, by omega⟩

theorem serves_entries (hg : g.Serves d n) : Serves d .entries (n + 1) (entries d g) := by
  intro r hr hn
  simp only [entries, yields_bind, yields_kind, yields_ite, yields_pure, yields_take]
  refine ⟨fun hk => ⟨.entriesNone (by simpa using hk), hr, Nat.le_refl _⟩, fun hk => ?_⟩
  refine (serves_entry hg _ hr hn).mono ?_
  rintro e r₁ ⟨he, hr₁, hl₁⟩
  refine ⟨fun hc => ?_, fun hc => ?_⟩
  · obtain ⟨ht, hr₂, hl₂⟩ := r₁.advanced hr₁ hc (by decide)
    simp only [forall_const, not_true_eq_false, false_implies, and_true]
    refine (hg.entries _ hr₂ (by omega)).mono ?_
    rintro es r₃ ⟨hes, hr₃, hl₃⟩
    exact ⟨.entriesMore (by simpa using hk) he ⟨_, ht⟩ hes, hr₃, by omega⟩
  · simp only [Bool.false_eq_true, false_implies, not_false_eq_true, forall_const, true_and]
    exact ⟨.entriesLast (by simpa using hk) he (by simpa using hc), hr₁, hl₁⟩

/-! ## Statements -/

/-- `endStatement` goes past a semicolon, or stops before a word that closes what it stands in. -/
theorem serves_endStatement (what : Expectation) :
    Serves d .endStatement n (endStatement d what) := by
  intro r hr _
  simp only [endStatement, yields_bind, yields_take, yields_cond, cond_true, cond_false,
    yields_pure, yields_kind, yields_unexpected]
  refine ⟨fun hk => ?_, fun hk => ?_⟩
  · obtain ⟨ht, hr₁, hl₁⟩ := r.advanced hr hk (by decide)
    exact ⟨.endSemicolon ⟨_, ht⟩, hr₁, by omega⟩
  · cases hd : d.isBlock && closesConstruct r.current.kind with
    | false => trivial
    | true =>
      rw [Bool.and_eq_true] at hd
      exact ⟨.endClosed hd.1 (by simpa using hd.2), hr, Nat.le_refl _⟩

/-- `conditional` reads its first test at once, and turns again only after an `else` or an
`elsif`. -/
theorem serves_conditional (hg : g.Serves d n) :
    Serves d .conditional (n + 1) (conditional d g) := by
  intro r hr hn
  cases d with
  | brace =>
    simp only [conditional, braceConditional, yields_bind, yields_consume, yields_take,
      yields_cond, cond_true, cond_false, yields_pure]
    intro hk
    obtain ⟨ht, hr₁, hl₁⟩ := r.advanced hr hk (by decide)
    refine (serves_expr hg _ hr₁ (by omega)).mono ?_
    rintro t r₂ ⟨htest, hr₂, hl₂⟩ hk₂
    obtain ⟨ht₂, hr₃, hl₃⟩ := r₂.advanced hr₂ hk₂ (by decide)
    refine (serves_block hg _ _ hr₃ (by omega)).mono ?_
    rintro body r₄ ⟨hb, hr₄, hl₄⟩
    refine ⟨fun hk₄ => ?_, fun hk₄ => ?_⟩
    · obtain ⟨ht₄, hr₅, hl₅⟩ := r₄.advanced hr₄ hk₄ (by decide)
      -- after `else` either another conditional or a block
      refine ⟨fun hk₅ => ?_, fun hk₅ => ?_⟩
      · obtain ⟨ht₅, hr₆, hl₆⟩ := r₄.next.advanced hr₅ hk₅ (by decide)
        refine (hg.conditional _ hr₆ (by omega)).mono ?_
        rintro o r₇ ⟨ho, hr₇, hl₇⟩
        exact ⟨.braceIfElseIf rfl ⟨_, ht⟩ htest ⟨_, ht₂⟩ hb ⟨_, ht₄⟩ ⟨_, ht₅⟩ ho, hr₇, by omega⟩
      · refine (serves_block hg _ _ hr₅ (by omega)).mono ?_
        rintro o r₆ ⟨ho, hr₆, hl₆⟩
        exact ⟨.braceIfElse rfl ⟨_, ht⟩ htest ⟨_, ht₂⟩ hb ⟨_, ht₄⟩ (by simpa using hk₅) ho, hr₆,
          by omega⟩
    · exact ⟨.braceIf rfl ⟨_, ht⟩ htest ⟨_, ht₂⟩ hb (by simpa using hk₄), hr₄, by omega⟩
  | block =>
    simp only [conditional, blockConditional, yields_bind, yields_consume, yields_take,
      yields_cond, cond_true, cond_false, yields_pure]
    refine (serves_expr hg _ hr hn).mono ?_
    rintro t r₁ ⟨htest, hr₁, hl₁⟩ hk₁
    obtain ⟨ht₁, hr₂, hl₂⟩ := r₁.advanced hr₁ hk₁ (by decide)
    refine (hg.declarations _ hr₂ (by omega)).mono ?_
    rintro body r₃ ⟨hb, hr₃, hl₃⟩
    -- a branch ends with `elsif`, `else` or `end`, in this order of asking
    refine ⟨fun hk₃ => ?_, fun _ => ⟨fun hk₃ => ?_, fun _ hk₃ => ?_⟩⟩
    · obtain ⟨ht₃, hr₄, hl₄⟩ := r₃.advanced hr₃ hk₃ (by decide)
      refine (hg.conditional _ hr₄ (by omega)).mono ?_
      rintro o r₅ ⟨ho, hr₅, hl₅⟩
      exact ⟨.blockIfElsif rfl htest ⟨_, ht₁⟩ hb ⟨_, ht₃⟩ ho, hr₅, by omega⟩
    · obtain ⟨ht₃, hr₄, hl₄⟩ := r₃.advanced hr₃ hk₃ (by decide)
      refine (hg.declarations _ hr₄ (by omega)).mono ?_
      rintro o r₅ ⟨ho, hr₅, hl₅⟩ hk₅
      obtain ⟨ht₅, hr₆, hl₆⟩ := r₅.advanced hr₅ hk₅ (by decide)
      exact ⟨.blockIfElse rfl htest ⟨_, ht₁⟩ hb ⟨_, ht₃⟩ ho ⟨_, ht₅⟩, hr₆, by omega⟩
    · obtain ⟨ht₃, hr₄, hl₄⟩ := r₃.advanced hr₃ hk₃ (by decide)
      exact ⟨.blockIf rfl htest ⟨_, ht₁⟩ hb ⟨_, ht₃⟩, hr₄, by omega⟩

/-- `whileLoop` goes on from the word that has been read before it. -/
theorem serves_whileLoop (hg : g.Serves d n) {r₀ r : Reader}
    (h₀ : Passes r₀.tape (.keyword .whileKw) r.tape) (hl₀ : r.ahead.length < r₀.ahead.length)
    (hr : r.tape.Proper d) (hn : r.ahead.length < n + 1) :
    (whileLoop d g).Yields r (Derives d .statement r₀) := by
  cases d with
  | brace =>
    simp only [whileLoop, yields_bind, yields_consume, yields_pure]
    intro hk
    obtain ⟨ht, hr₁, hl₁⟩ := r.advanced hr hk (by decide)
    refine (serves_expr hg _ hr₁ (by omega)).mono ?_
    rintro t r₂ ⟨htest, hr₂, hl₂⟩ hk₂
    obtain ⟨ht₂, hr₃, hl₃⟩ := r₂.advanced hr₂ hk₂ (by decide)
    refine (serves_block hg _ _ hr₃ (by omega)).mono ?_
    rintro body r₄ ⟨hb, hr₄, hl₄⟩
    exact ⟨.braceWhile rfl h₀ ⟨_, ht⟩ htest ⟨_, ht₂⟩ hb, hr₄, by omega⟩
  | block =>
    simp only [whileLoop, yields_bind, yields_pure]
    refine (serves_expr hg _ hr hn).mono ?_
    rintro t r₁ ⟨htest, hr₁, hl₁⟩
    refine (serves_block hg _ _ hr₁ (by omega)).mono ?_
    rintro body r₂ ⟨hb, hr₂, hl₂⟩
    exact ⟨.blockWhile rfl h₀ htest hb, hr₂, by omega⟩

/-- `take` is a `Flag` that tells whether the token was there. -/
theorem yields_take_flag {k : TokenKind} (hk : k ≠ .eof) {r : Reader} (hr : r.tape.Proper d) :
    (take k).Yields r fun b r' =>
      Flag k r.tape b r'.tape ∧ r'.tape.Proper d ∧ r'.ahead.length ≤ r.ahead.length := by
  rw [yields_take]
  refine ⟨fun h => ?_, fun h => ⟨.no (by simpa using h), hr, Nat.le_refl _⟩⟩
  obtain ⟨ht, hr₁, hl₁⟩ := r.advanced hr h hk
  exact ⟨.yes ⟨_, ht⟩, hr₁, by omega⟩

/-- `someNames` gives at least one name. -/
theorem yields_someNames (hg : g.Serves d n) {r : Reader} (hr : r.tape.Proper d)
    (hn : r.ahead.length < n + 1) :
    (someNames g).Yields r fun ns r' => Derives d .names r ns r' ∧ ns ≠ [] := by
  simp only [someNames, yields_bind, yields_cond, yields_pure, yields_unexpected]
  refine (serves_names hg _ hr hn).mono fun ns r₁ hns => ?_
  cases ns with
  | nil => trivial
  | cons m ns => exact ⟨hns, by simp⟩

/-- The names of a loop, with the closing bracket if `PassesIf` asks for one. -/
theorem yields_loopNames (hg : g.Serves d n) {r : Reader} (hr : r.tape.Proper d)
    (hn : r.ahead.length < n + 1) (b : Bool) :
    (loopNames g b).Yields r fun ns r' => ns ≠ [] ∧
      (∃ S, Reads d .names r.tape ns S ∧ PassesIf (.punct .rbrack) b S r'.tape) ∧
      r'.tape.Proper d ∧ r'.ahead.length ≤ r.ahead.length := by
  simp only [loopNames, yields_bind, yields_cond]
  refine (yields_someNames hg hr hn).mono ?_
  rintro ns r₁ ⟨⟨hns, hr₁, hl₁⟩, hne⟩
  cases b with
  | true =>
    simp only [cond_true, yields_consume, yields_pure]
    intro hk
    obtain ⟨ht, hr₂, hl₂⟩ := r₁.advanced hr₁ hk (by decide)
    exact ⟨hne, ⟨_, hns, .yes ⟨_, ht⟩⟩, hr₂, by omega⟩
  | false =>
    simp only [cond_false, yields_pure]
    exact ⟨hne, ⟨_, hns, .no⟩, hr₁, hl₁⟩

/-- `loopHeader` reads a declaring word and brackets where they are. -/
theorem serves_loopHeader (hg : g.Serves d n) :
    Serves d .loopHeader (n + 1) (loopHeader d g) := by
  intro r hr hn
  -- from the declaring word on
  have hrest : ∀ {r₁ : Reader} {kw : Option VarKeyword}, Perhaps varKeyword? r.tape kw r₁.tape →
      r₁.tape.Proper d → r₁.ahead.length ≤ r.ahead.length →
      (take (.punct .lbrack)).Yields r₁ fun b r₂ => (loopNames g b).Yields r₂ fun ns r₃ =>
        r₃.current.kind = .keyword .ofKw → (expr d g).Yields r₃.next fun e r₅ =>
          Derives d .loopHeader r (kw, ns, b, e) r₅ := by
    intro r₁ kw hkw hr₁ hl₁
    refine (yields_take_flag (by decide) hr₁).mono ?_
    rintro b r₂ ⟨hb, hr₂, hl₂⟩
    refine (yields_loopNames hg hr₂ (by omega) b).mono ?_
    rintro ns r₃ ⟨hne, ⟨S, hns, hc⟩, hr₃, hl₃⟩ hk₃
    obtain ⟨ht₃, hr₄, hl₄⟩ := r₃.advanced hr₃ hk₃ (by decide)
    refine (serves_expr hg _ hr₄ (by omega)).mono ?_
    rintro e r₅ ⟨he, hr₅, hl₅⟩
    exact ⟨.loopHeader hkw hb hns hne hc ⟨_, ht₃⟩ he, hr₅, by omega⟩
  simp only [loopHeader, yields_bind, yields_kind, yields_cond, yields_advance, yields_pure,
    yields_consume]
  cases hkw : varKeyword? r.current.kind with
  | none => exact hrest (.none (by simpa using hkw)) hr (Nat.le_refl _)
  | some kw =>
    obtain ⟨ht, hr₁, hl₁⟩ := r.advanced hr rfl (by rintro h; simp [h, varKeyword?] at hkw)
    exact hrest (.some ⟨_, ht⟩ hkw) hr₁ (by omega)

/-- `forLoop` goes on from the word that has been read before it. -/
theorem serves_forLoop (hg : g.Serves d n) {r₀ r : Reader}
    (h₀ : Passes r₀.tape (.keyword .forKw) r.tape) (hl₀ : r.ahead.length < r₀.ahead.length)
    (hr : r.tape.Proper d) (hn : r.ahead.length < n + 1) :
    (forLoop d g).Yields r (Derives d .statement r₀) := by
  cases d with
  | brace =>
    simp only [forLoop, yields_bind, yields_consume, yields_pure]
    intro hk
    obtain ⟨ht, hr₁, hl₁⟩ := r.advanced hr hk (by decide)
    refine (serves_loopHeader hg _ hr₁ (by omega)).mono ?_
    rintro ⟨kw, ns, b, e⟩ r₂ ⟨hh, hr₂, hl₂⟩ hk₂
    obtain ⟨ht₂, hr₃, hl₃⟩ := r₂.advanced hr₂ hk₂ (by decide)
    refine (serves_block hg _ _ hr₃ (by omega)).mono ?_
    rintro body r₄ ⟨hb, hr₄, hl₄⟩
    exact ⟨.braceFor rfl h₀ ⟨_, ht⟩ hh ⟨_, ht₂⟩ hb, hr₄, by omega⟩
  | block =>
    simp only [forLoop, yields_bind, yields_pure]
    refine (serves_loopHeader hg _ hr hn).mono ?_
    rintro ⟨kw, ns, b, e⟩ r₁ ⟨hh, hr₁, hl₁⟩
    refine (serves_block hg _ _ hr₁ (by omega)).mono ?_
    rintro body r₂ ⟨hb, hr₂, hl₂⟩
    exact ⟨.blockFor rfl h₀ hh hb, hr₂, by omega⟩

/-- Something has been read, as `Derives` says, or nothing was there to read and the reader has
not moved. -/
def DerivesSome (d : Dialect) (φ : Phrase) (starts : TokenKind → Bool) (r : Reader) :
    Option φ.Out → Reader → Prop
  | some a, r' => Derives d φ r a r'
  | none, r' => r' = r ∧ starts r.current.kind = false

/-- `statement?` gives nothing only where the token at hand begins neither a statement nor an
expression. -/
theorem yields_statement? (hg : g.Serves d n) {r : Reader} (hr : r.tape.Proper d)
    (hn : r.ahead.length < n + 1) :
    (statement? d g).Yields r
      (DerivesSome d .statement (fun k => startsStatement d k || startsExpression d k) r) := by
  simp only [statement?, semicolon, yields_bind, yields_kind]
  split
  · next hk =>
    obtain ⟨ht, hr₁, hl₁⟩ := r.advanced hr hk (by decide)
    simp only [yields_bind, yields_advance, yields_pure]
    refine (serves_conditional hg _ hr₁ (by omega)).mono ?_
    rintro st r₂ ⟨hs, hr₂, hl₂⟩
    exact ⟨.ifStatement ⟨_, ht⟩ hs, hr₂, by omega⟩
  · next hk =>
    obtain ⟨ht, hr₁, hl₁⟩ := r.advanced hr hk (by decide)
    simp only [yields_bind, yields_advance, yields_pure]
    exact serves_whileLoop hg ⟨_, ht⟩ hl₁ hr₁ (by omega)
  · next hk =>
    obtain ⟨ht, hr₁, hl₁⟩ := r.advanced hr hk (by decide)
    simp only [yields_bind, yields_advance, yields_pure]
    exact serves_forLoop hg ⟨_, ht⟩ hl₁ hr₁ (by omega)
  · next hk =>
    obtain ⟨ht, hr₁, hl₁⟩ := r.advanced hr hk (by decide)
    simp only [yields_bind, yields_advance, yields_pure]
    refine (serves_expr hg _ hr₁ (by omega)).mono ?_
    rintro e r₂ ⟨he, hr₂, hl₂⟩
    refine (serves_endStatement _ _ hr₂ (Nat.lt_succ_self _)).mono ?_
    rintro _ r₃ ⟨hs, hr₃, hl₃⟩
    exact ⟨.throw ⟨_, ht⟩ he hs, hr₃, by omega⟩
  · next hk =>
    obtain ⟨ht, hr₁, hl₁⟩ := r.advanced hr hk (by decide)
    simp only [yields_bind, yields_advance, yields_kind, yields_cond, yields_pure]
    cases hstart : startsExpression d r.next.current.kind with
    | true =>
      refine (serves_expr hg _ hr₁ (by omega)).mono ?_
      rintro e r₂ ⟨he, hr₂, hl₂⟩
      refine (serves_endStatement _ _ hr₂ (Nat.lt_succ_self _)).mono ?_
      rintro _ r₃ ⟨hs, hr₃, hl₃⟩
      exact ⟨.retSome ⟨_, ht⟩ (by simpa using hstart) he hs, hr₃, by omega⟩
    | false =>
      refine (serves_endStatement _ _ hr₁ (Nat.lt_succ_self _)).mono ?_
      rintro _ r₃ ⟨hs, hr₃, hl₃⟩
      exact ⟨.retNone ⟨_, ht⟩ (by simpa using hstart) hs, hr₃, by omega⟩
  · -- no keyword of a statement: a block, an expression or nothing
    next hif hwhile hfor hthrow hret =>
    simp only [yields_ite, yields_bind, yields_pure]
    refine ⟨fun hk => ?_, fun hk => ⟨fun hstart => ?_, fun hstart => ⟨rfl, ?_⟩⟩⟩
    · refine (serves_block hg _ _ hr hn).mono ?_
      rintro body r₁ ⟨hb, hr₁, hl₁⟩
      exact ⟨.blockStatement hb, hr₁, hl₁⟩
    · refine (serves_expr hg _ hr hn).mono ?_
      rintro e r₁ ⟨he, hr₁, hl₁⟩
      refine (serves_endStatement _ _ hr₁ (Nat.lt_succ_self _)).mono ?_
      rintro _ r₂ ⟨hs, hr₂, hl₂⟩
      exact ⟨.exprStatement (by simpa using hk) (by simpa using hstart) he hs, hr₂, by omega⟩
    · rw [Bool.or_eq_false_iff]
      refine ⟨?_, by simpa using hstart⟩
      unfold startsStatement
      rw [beq_false_of_ne hk]
      split <;> simp_all

/-! ## Declarations -/

/-- `functionDeclaration` goes on from the words that have been read before it. -/
theorem serves_functionDeclaration (hg : g.Serves d n) {r₀ r : Reader} {S : Tape}
    {exported isAsync : Bool} (he : Flag (.keyword .exportKw) r₀.tape exported S)
    (ha : Flag (.keyword .asyncKw) S isAsync r.tape) (hr : r.tape.Proper d)
    (hk : r.current.kind = d.functionWord) (hl : r.ahead.length ≤ r₀.ahead.length)
    (hn : r.ahead.length < n + 1) :
    (functionDeclaration d g exported isAsync).Yields r (Derives d .declaration r₀) := by
  simp only [functionDeclaration, yields_bind, yields_advance, yields_consume, yields_pure]
  obtain ⟨ht, hr₁, hl₁⟩ := r.advanced hr hk (by simp)
  intro hname
  obtain ⟨ht₂, hr₂, hl₂⟩ := r.next.advanced hr₁ hname (by decide)
  refine (serves_signature hg _ hr₂ (by omega)).mono ?_
  rintro ps r₃ ⟨hps, hr₃, hl₃⟩
  refine (serves_block hg _ _ hr₃ (by omega)).mono ?_
  rintro body r₄ ⟨hb, hr₄, hl₄⟩
  exact ⟨.function he ha ⟨_, ht⟩ ht₂ hps hb, hr₄, by omega⟩

theorem yields_isPlainAssign {r : Reader} {Q : Bool → Reader → Prop} :
    isPlainAssign.Yields r Q ↔ Q (r.current.kind == .assign && r.current.text == "=") r :=
  Iff.rfl

/-- So does `variableDeclaration`, with a name or with brackets. -/
theorem serves_variableDeclaration (hg : g.Serves d n) {r₀ r : Reader} {exported : Bool}
    {kw : VarKeyword} (he : Flag (.keyword .exportKw) r₀.tape exported r.tape)
    (hr : r.tape.Proper d) (hk : varKeyword? r.current.kind = some kw)
    (hl : r.ahead.length ≤ r₀.ahead.length) (hn : r.ahead.length < n + 1) :
    (variableDeclaration d g kw exported).Yields r (Derives d .declaration r₀) := by
  simp only [variableDeclaration, bracketedVariables, semicolon, yields_bind, yields_advance,
    yields_take, yields_cond, cond_true, cond_false, yields_consume, yields_isPlainAssign,
    yields_pure, yields_unexpected]
  obtain ⟨ht, hr₁, hl₁⟩ := r.advanced hr rfl (by rintro h; simp [h, varKeyword?] at hk)
  refine ⟨fun hopen => ?_, fun _ hname => ?_⟩
  · obtain ⟨ht₁, hr₂, hl₂⟩ := r.next.advanced hr₁ hopen (by decide)
    refine (yields_someNames hg hr₂ (by omega)).mono ?_
    rintro ns r₃ ⟨⟨hns, hr₃, hl₃⟩, hne⟩ hclose
    obtain ⟨ht₃, hr₄, hl₄⟩ := r₃.advanced hr₃ hclose (by decide)
    -- names in brackets need a value, so without the sign there is a complaint
    cases hassign : r₃.next.current.kind == .assign && r₃.next.current.text == "=" with
    | false => trivial
    | true =>
      simp only [Bool.and_eq_true, beq_iff_eq] at hassign
      obtain ⟨ht₄, hr₅, hl₅⟩ := r₃.next.advanced hr₄ hassign.1 (by decide)
      rw [hassign.2] at ht₄
      refine (serves_assignment hg _ hr₅ (by omega)).mono ?_
      rintro v r₆ ⟨hv, hr₆, hl₆⟩
      refine (serves_endStatement _ _ hr₆ (Nat.lt_succ_self _)).mono ?_
      rintro _ r₇ ⟨hs, hr₇, hl₇⟩
      exact ⟨.vars he ⟨_, ht⟩ hk ⟨_, ht₁⟩ hns hne ⟨_, ht₃⟩ ht₄ hv hs, hr₇, by omega⟩
  · obtain ⟨ht₁, hr₂, hl₂⟩ := r.next.advanced hr₁ hname (by decide)
    cases hassign : r.next.next.current.kind == .assign && r.next.next.current.text == "=" with
    | false =>
      refine (serves_endStatement _ _ hr₂ (Nat.lt_succ_self _)).mono ?_
      rintro _ r₃ ⟨hs, hr₃, hl₃⟩
      exact ⟨.var he ⟨_, ht⟩ hk ht₁ (by simpa using hassign) hs, hr₃, by omega⟩
    | true =>
      simp only [Bool.and_eq_true, beq_iff_eq] at hassign
      obtain ⟨ht₂, hr₃, hl₃⟩ := r.next.next.advanced hr₂ hassign.1 (by decide)
      rw [hassign.2] at ht₂
      refine (serves_assignment hg _ hr₃ (by omega)).mono ?_
      rintro v r₄ ⟨hv, hr₄, hl₄⟩
      refine (serves_endStatement _ _ hr₄ (Nat.lt_succ_self _)).mono ?_
      rintro _ r₅ ⟨hs, hr₅, hl₅⟩
      exact ⟨.varValue he ⟨_, ht⟩ hk ht₁ ht₂ hv hs, hr₅, by omega⟩

/-- `exportComplaint` complains in any case. -/
@[simp] theorem yields_exportComplaint {r : Reader} {token : Token}
    {Q : Option Declaration → Reader → Prop} : (exportComplaint d token).Yields r Q := by
  simp only [exportComplaint, yields_bind, yields_kind, yields_cond, yields_complain,
    yields_unexpected]
  cases startsStatement d r.current.kind <;> cases startsExpression d r.current.kind <;> trivial

/-- `declarationFrom`, after the words before a declaration: the word `export` and the word
`async`, or not. -/
theorem yields_declarationFrom (hg : g.Serves d n) {r₀ r : Reader} {S : Tape}
    {exportWord : Option Token} {isAsync : Bool}
    (he : Flag (.keyword .exportKw) r₀.tape exportWord.isSome S)
    (ha : Flag (.keyword .asyncKw) S isAsync r.tape)
    (hword : isAsync = true → r.current.kind = d.functionWord)
    (hstay : exportWord = none → isAsync = false → r = r₀)
    (hr : r.tape.Proper d) (hl : r.ahead.length ≤ r₀.ahead.length) (hn : r.ahead.length < n + 1) :
    (declarationFrom d g exportWord isAsync).Yields r
      (DerivesSome d .declaration (startsDeclaration d) r₀) := by
  simp only [declarationFrom, yields_bind, yields_kind, yields_ite]
  refine ⟨fun heof => ?_, fun heof => ⟨fun hf => ?_, fun hf => ?_⟩⟩
  · cases exportWord with
    | some token => exact ⟨_, rfl⟩
    | none =>
      cases isAsync with
      | true => exact absurd (hword rfl) (by rw [heof]; exact (d.functionWord_ne_eof).symm)
      | false =>
        obtain rfl := hstay rfl rfl
        refine ⟨rfl, ?_⟩
        rw [heof]
        cases d <;> rfl
  · exact serves_functionDeclaration hg he ha hr hf hl hn
  · -- only a function may follow `async`
    obtain rfl : isAsync = false := by
      cases isAsync with
      | true => exact absurd (hword rfl) hf
      | false => rfl
    have hS : r.tape = S := by
      cases ha with
      | no => rfl
    have hasync : r.current.kind ≠ .keyword .asyncKw := by
      cases ha with
      | no h => simpa using h
    subst hS
    split
    · next kw exportWord hkw =>
      simp only [yields_bind, yields_pure]
      exact serves_variableDeclaration hg he hr hkw hl hn
    · exact yields_exportComplaint
    · next hkw =>
      obtain rfl := hstay rfl rfl
      have hexport : r.current.kind ≠ .keyword .exportKw := by
        cases he with
        | no h => simpa using h
      simp only [yields_bind, yields_pure]
      refine (yields_statement? hg hr hn).mono ?_
      rintro (_ | st) r₁ h₁
      · refine ⟨h₁.1, ?_⟩
        have hstart := h₁.2
        simp only [Bool.or_eq_false_iff] at hstart
        simp [startsDeclaration, hexport, hasync, hf, hkw, hstart]
      · exact ⟨.statement (by simpa using hexport) (by simpa using hasync) (by simpa using hf)
          (by simpa using hkw) h₁.reads, h₁.proper, h₁.length⟩

/-- `declaration?` gives nothing only where the token at hand does not `startsDeclaration`. -/
theorem yields_declaration? (hg : g.Serves d n) {r : Reader} (hr : r.tape.Proper d)
    (hn : r.ahead.length < n + 1) :
    (declaration? d g).Yields r (DerivesSome d .declaration (startsDeclaration d) r) := by
  -- from `async` on
  have hrest : ∀ {r₁ : Reader} {exportWord : Option Token},
      Flag (.keyword .exportKw) r.tape exportWord.isSome r₁.tape →
      (exportWord = none → r₁ = r) → r₁.tape.Proper d → r₁.ahead.length ≤ r.ahead.length →
      (take (.keyword .asyncKw)).Yields r₁ fun isAsync r₂ =>
        cond (isAsync && r₂.current.kind != d.functionWord)
          ((unexpected (.tokenAfter d.functionWord "async")).Yields r₂
            (DerivesSome d .declaration (startsDeclaration d) r))
          ((declarationFrom d g exportWord isAsync).Yields r₂
            (DerivesSome d .declaration (startsDeclaration d) r)) := by
    intro r₁ exportWord he hstay hr₁ hl₁
    rw [yields_take]
    refine ⟨fun hk => ?_, fun hk => ?_⟩
    · obtain ⟨ht, hr₂, hl₂⟩ := r₁.advanced hr₁ hk (by decide)
      cases hf : r₁.next.current.kind != d.functionWord with
      | true => exact ⟨_, rfl⟩
      | false =>
        refine yields_declarationFrom hg he (.yes ⟨_, ht⟩) (fun _ => by simpa using hf) ?_ hr₂
          (by omega) (by omega)
        exact fun _ h => absurd h (by decide)
    · exact yields_declarationFrom hg he (.no (by simpa using hk))
        (fun h => absurd h (by decide)) (fun h _ => hstay h) hr₁ hl₁ (by omega)
  simp only [declaration?, yields_bind, yields_is, yields_cond, cond_true, cond_false,
    yields_advance, yields_pure, yields_kind]
  refine ⟨fun hk => ?_, fun hk => ?_⟩
  · obtain ⟨ht, hr₁, hl₁⟩ := r.advanced hr hk (by decide)
    exact hrest (.yes ⟨_, ht⟩) (fun h => absurd h (by simp)) hr₁ (by omega)
  · exact hrest (.no (by simpa using hk)) (fun _ => rfl) hr (Nat.le_refl _)

/-- The comments that wait become a declaration by `Comment.declare` and no longer wait. -/
theorem yields_pendingComments {r : Reader} {Q : Block → Reader → Prop} :
    pendingComments.Yields r Q ↔ Q (Comment.declare r.pending) { r with pending := [] } := by
  simp only [pendingComments, yields_bind, yields_takeComments, yields_cond, yields_pure]
  cases r.pending <;> rfl

/-- `declarations` reads one declaration, with the comments before it, and turns again after it. -/
theorem serves_declarations (hg : g.Serves d n) :
    Serves d .declarations (n + 1) (declarations d g) := by
  intro r hr hn
  simp only [declarations, yields_bind, yields_pendingComments]
  have hr₀ : Reader.tape { r with pending := [] } |>.Proper d := by
    rw [Reader.tape_flushed]
    exact hr.flush
  refine (yields_declaration? hg hr₀ hn).mono ?_
  rintro (_ | x) r₁ h₁
  · obtain ⟨rfl, hstart⟩ := h₁
    refine ⟨?_, hr₀, Nat.le_refl _⟩
    rw [Reader.tape_flushed, ← r.waiting_tape]
    exact .declarationsEnd (by simpa using hstart)
  · obtain ⟨hx, hr₁, hl₁⟩ := h₁
    rw [Reader.tape_flushed] at hx
    simp only [yields_bind, yields_pure]
    -- a declaration takes a token, so what is left is within the bound of `g`
    have hlt : r₁.ahead.length < n := by
      have := hx.tokens_lt rfl
      rw [Tape.tokens_flush, Reader.tokens_tape, Reader.tokens_tape] at this
      omega
    refine (hg.declarations _ hr₁ hlt).mono ?_
    rintro xs r₂ ⟨hxs, hr₂, hl₂⟩
    refine ⟨?_, hr₂, Nat.le_trans hl₂ hl₁⟩
    rw [← r.waiting_tape]
    exact .declarationsMore hx hxs

/-! ## Whole files -/

theorem yields_modulePath {r : Reader} (hr : r.tape.Proper d) :
    modulePath.Yields r fun p r' => (∃ S, Passes r.tape (.keyword .fromKw) S ∧
      Takes S .string p r'.tape) ∧ r'.tape.Proper d ∧ r'.ahead.length ≤ r.ahead.length := by
  simp only [modulePath, yields_bind, yields_consume, yields_pure]
  intro hf hp
  obtain ⟨ht, hr₁, hl₁⟩ := r.advanced hr hf (by decide)
  obtain ⟨ht₁, hr₂, hl₂⟩ := r.next.advanced hr₁ hp (by decide)
  exact ⟨⟨_, ⟨_, ht⟩, ht₁⟩, hr₂, by omega⟩

/-- `importedNames` reads names in braces, or a star and one name. -/
theorem serves_importedNames (hg : g.Serves d n) :
    Serves d .importedNames (n + 1) (importedNames g) := by
  intro r hr hn
  simp only [importedNames, yields_bind, yields_take, yields_cond, cond_true, cond_false,
    yields_consume, yields_pure]
  refine ⟨fun hk ha hname => ?_, fun _ ho => ?_⟩
  · obtain ⟨ht, hr₁, hl₁⟩ := r.advanced hr hk (by decide)
    obtain ⟨ht₁, hr₂, hl₂⟩ := r.next.advanced hr₁ ha (by decide)
    obtain ⟨ht₂, hr₃, hl₃⟩ := r.next.next.advanced hr₂ hname (by decide)
    refine (yields_modulePath hr₃).mono ?_
    rintro p r₄ ⟨⟨S, hf, hp⟩, hr₄, hl₄⟩
    exact ⟨.importWhole ⟨_, ht⟩ ⟨_, ht₁⟩ ht₂ hf hp, hr₄, by omega⟩
  · obtain ⟨ht, hr₁, hl₁⟩ := r.advanced hr ho (by decide)
    refine (hg.names _ hr₁ (by omega)).mono ?_
    rintro ns r₂ ⟨hns, hr₂, hl₂⟩ hc
    obtain ⟨ht₂, hr₃, hl₃⟩ := r₂.advanced hr₂ hc (by decide)
    refine (yields_modulePath hr₃).mono ?_
    rintro p r₄ ⟨⟨S, hf, hp⟩, hr₄, hl₄⟩
    exact ⟨.importNames ⟨_, ht⟩ hns ⟨_, ht₂⟩ hf hp, hr₄, by omega⟩

/-- `imports` reads one import and turns again after it. -/
theorem serves_imports (hg : g.Serves d n) : Serves d .imports (n + 1) (imports d g) := by
  intro r hr hn
  simp only [imports, semicolon, yields_bind, yields_take, yields_cond, cond_true, cond_false,
    yields_pure]
  refine ⟨fun hk => ?_, fun hk => ⟨.importsNone (by simpa using hk), hr, Nat.le_refl _⟩⟩
  obtain ⟨ht, hr₁, hl₁⟩ := r.advanced hr hk (by decide)
  refine (serves_importedNames hg _ hr₁ (by omega)).mono ?_
  rintro i r₂ ⟨hi, hr₂, hl₂⟩
  refine (serves_endStatement _ _ hr₂ (Nat.lt_succ_self _)).mono ?_
  rintro _ r₃ ⟨hs, hr₃, hl₃⟩
  refine (hg.imports _ hr₃ (by omega)).mono ?_
  rintro is r₄ ⟨his, hr₄, hl₄⟩
  exact ⟨.importsMore ⟨_, ht⟩ hi hs his, hr₄, by omega⟩

/-- `moduleLine` reads the line that names the module, if there is one. -/
theorem yields_moduleLine {r : Reader} (hr : r.tape.Proper d) :
    (moduleLine d).Yields r fun m r' => ModuleLine d r.tape m r'.tape ∧ r'.tape.Proper d ∧
      r'.ahead.length ≤ r.ahead.length := by
  simp only [moduleLine, semicolon, yields_bind, yields_take, yields_cond, cond_true, cond_false,
    yields_consume, yields_pure]
  refine ⟨fun hk hname => ?_, fun hk => ⟨.none (by simpa using hk), hr, Nat.le_refl _⟩⟩
  obtain ⟨ht, hr₁, hl₁⟩ := r.advanced hr hk (by decide)
  obtain ⟨ht₁, hr₂, hl₂⟩ := r.next.advanced hr₁ hname (by decide)
  refine (serves_endStatement _ _ hr₂ (Nat.lt_succ_self _)).mono ?_
  rintro _ r₃ ⟨hs, hr₃, hl₃⟩
  exact ⟨.some ⟨_, ht⟩ ht₁ hs, hr₃, by omega⟩

/-- A whole file is derived from its tape by `ReadsProgram`, or the tape is `Blank`. -/
theorem yields_program? (hg : g.Serves d n) {r : Reader} {trailer : Option String}
    (hr : r.tape.Proper d) (hn : r.ahead.length < n + 1) :
    (program? d g trailer).Yields r fun p? _ =>
      match p? with
      | none => Blank r.tape trailer
      | some p => ReadsProgram d r.tape trailer p := by
  simp only [program?, yields_bind, yields_takeComments, yields_current, yields_cond, yields_is,
    cond_true, cond_false, yields_consume, yields_pure]
  cases hblank : r.current.isEof && r.pending.isEmpty && trailer.isNone with
  | true =>
    simpa [Blank, Token.isEof, and_assoc] using hblank
  | false =>
    have hne : ¬Blank r.tape trailer := by
      simpa [Blank, Token.isEof, Option.isSome_iff_ne_none] using hblank
    have hr₀ : Reader.tape { r with pending := [] } |>.Proper d := by
      rw [Reader.tape_flushed]
      exact hr.flush
    refine (yields_moduleLine hr₀).mono ?_
    rintro m r₁ ⟨hm, hr₁, hl₁⟩
    rw [Reader.tape_flushed] at hm
    simp only at hl₁
    -- whether or not there are comments to take before the imports
    have hrest : ∀ {cs : List Comment} {r₂ : Reader}, BeforeImports r₁.tape cs r₂.tape →
        r₂.tape.Proper d → r₂.ahead.length ≤ r₁.ahead.length →
        (imports d g).Yields r₂ fun is r₃ => (declarations d g).Yields r₃ fun body r₄ =>
          r₄.current.kind = .eof → ReadsProgram d r.tape trailer
            { leading := r.pending ++ cs, moduleName := m, imports := is, body,
              trailer := trailer.getD "" } := by
      intro cs r₂ hcs hr₂ hl₂
      refine (serves_imports hg _ hr₂ (by omega)).mono ?_
      rintro is r₃ ⟨his, hr₃, hl₃⟩
      refine (serves_declarations hg _ hr₃ (by omega)).mono ?_
      rintro body r₄ ⟨hb, hr₄, hl₄⟩ he
      rw [← r.waiting_tape]
      exact .mk hne hm hcs his hb (hr₄.eq_end (by simpa using he) hb.waiting_of_declarations)
    refine ⟨fun hk => ?_, fun hk => hrest (.kept (by simpa using hk)) hr₁ (Nat.le_refl _)⟩
    refine hrest ?_ ?_ (Nat.le_refl _)
    · rw [Reader.tape_flushed, ← r₁.waiting_tape]
      exact .taken (by simpa using hk)
    · rw [Reader.tape_flushed]
      exact hr₁.flush

/-- A grammar one `deeper` serves readers with one token more ahead. -/
theorem serves_deeper (hg : g.Serves d n) : (deeper d g).Serves d (n + 1) where
  expr := serves_expr hg
  sequenceFrom := serves_sequenceFrom hg
  assignment := serves_assignment hg
  climb := serves_climb hg
  climbFrom := serves_climbFrom hg
  unary := serves_unary hg
  memberFrom := serves_memberFrom hg
  pathFrom := serves_pathFrom hg
  elements := serves_elements hg
  entries := serves_entries hg
  names := serves_names hg
  declarations := serves_declarations hg
  conditional := serves_conditional hg
  imports := serves_imports hg

end Rules

/-- So `Grammar.ofDepth` serves readers with fewer tokens ahead than its depth. -/
theorem Grammar.serves_ofDepth (d : Dialect) (n : Nat) : (Grammar.ofDepth d n).Serves d n := by
  induction n with
  | zero =>
    constructor <;> intros <;> intro r hr hn <;> exact absurd hn (Nat.not_lt_zero _)
  | succ n ih => exact Rules.serves_deeper ih

end Diglot

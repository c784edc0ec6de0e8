import Diglot.Tree.Equality
import Diglot.Proofs.Relayout

/-!
# What reading ignores

Blanks, comments, the trailer and the places of tokens have no say in how a text is read: two texts
with the same significant tokens hold the same program, up to comments and trailer, or they are
refused with the same message. The argument runs a rule on two readers side by side. As long as both
have the same tokens before them, they stop at the same token, and what they give is the same once
comments are taken out of it.

- `Expr.strip`, `Statement.strip`, `Declaration.strip`, `Program.strip`: trees without comments.
- `Reader.Alike`: readers before the same tokens.
- `Parser.Agree`: two parsers do the same on readers that are alike.
- `Grammar.Agrees`: the parsers of a grammar do the same on what differs in comments alone.
- `parseText_of_significant`: what two texts with the same tokens hold.
-/

namespace Diglot

open Rules

/-! ## Trees without comments -/

mutual

/-- An expression without the comments in it. -/
def Expr.strip : Expr → Expr
  | .symbol name => .symbol name
  | .literal value => .literal value
  | .grouping inner => .grouping inner.strip
  | .unary op operand => .unary op operand.strip
  | .step op operand => .step op operand.strip
  | .binary op left right => .binary op left.strip right.strip
  | .ternary test yes no => .ternary test.strip yes.strip no.strip
  | .call callee arguments => .call callee.strip arguments.strip
  | .index target position => .index target.strip position.strip
  | .object es => .object (Entry.strips es)
  | .list es trailingComma => .list (Expr.strips es) trailingComma
  | .array es => .array (Expr.strips es)
  | .function name params body => .function name params (Declaration.strips body)
  | .arrow params body => .arrow params body.strip
  | .arrowBlock params body => .arrowBlock params (Declaration.strips body)

/-- Several expressions without comments. -/
def Expr.strips : List Expr → List Expr
  | [] => []
  | e :: es => e.strip :: Expr.strips es

/-- An object entry without comments. -/
def Entry.strip : Entry → Entry
  | .shorthand key => .shorthand key
  | .pair key value => .pair key value.strip

/-- Several object entries without comments. -/
def Entry.strips : List Entry → List Entry
  | [] => []
  | e :: es => e.strip :: Entry.strips es

/-- A statement without comments. -/
def Statement.strip : Statement → Statement
  | .ifThen test body none => .ifThen test.strip (Declaration.strips body) none
  | .ifThen test body (some other) =>
    .ifThen test.strip (Declaration.strips body) (some other.strip)
  | .whileLoop test body => .whileLoop test.strip (Declaration.strips body)
  | .forLoop keyword names collection body bracketed =>
    .forLoop keyword names collection.strip (Declaration.strips body) bracketed
  | .throw value => .throw value.strip
  | .ret none => .ret none
  | .ret (some value) => .ret (some value.strip)
  | .expr value => .expr value.strip
  | .block body => .block (Declaration.strips body)

/-- What is left of a declaration without comments: nothing, if it is `Declaration.comments`. -/
def Declaration.strip : Declaration → List Declaration
  | .function name params body exported isAsync =>
    [.function name params (Declaration.strips body) exported isAsync]
  | .var keyword name none exported => [.var keyword name none exported]
  | .var keyword name (some value) exported => [.var keyword name (some value.strip) exported]
  | .vars keyword names value exported => [.vars keyword names value.strip exported]
  | .statement st => [.statement st.strip]
  | .comments _ => []

/-- Several declarations without comments. -/
def Declaration.strips : List Declaration → List Declaration
  | [] => []
  | x :: xs => x.strip ++ Declaration.strips xs

end

/-- A program without comments and trailer: `leading` and `trailer` are empty and the body is
stripped. -/
def Program.strip (p : Program) : Program :=
  { p with leading := [], body := Declaration.strips p.body, trailer := "" }

/-- `Statement.strip` of a `ret`, with or without a value. -/
theorem Statement.strip_ret (value : Option Expr) :
    (Statement.ret value).strip = .ret (value.map Expr.strip) := by
  cases value <;> rfl

/-- `Declaration.strip` of a `var`, with or without a value. -/
theorem Declaration.strip_var (keyword : VarKeyword) (name : String) (value : Option Expr)
    (exported : Bool) : (Declaration.var keyword name value exported).strip =
      [.var keyword name (value.map Expr.strip) exported] := by
  cases value <;> rfl

/-- `Declaration.strips` goes through a block one declaration after the other. -/
theorem Declaration.strips_append (xs ys : Block) :
    Declaration.strips (xs ++ ys) = Declaration.strips xs ++ Declaration.strips ys := by
  induction xs with
  | nil => rfl
  | cons x xs ih => simp only [List.cons_append, Declaration.strips, ih, List.append_assoc]

namespace Expr

/-! The form of an expression, as far as a rule asks for it, does not depend on comments. -/

theorem isArrow_strip (e : Expr) : e.strip.isArrow = e.isArrow := by
  cases e <;> rfl

theorem isSymbol_strip (e : Expr) : e.strip.isSymbol = e.isSymbol := by
  cases e <;> rfl

theorem isList_strip (e : Expr) : e.strip.isList = e.isList := by
  cases e <;> rfl

theorem isOpenUnary_strip (e : Expr) : isOpenUnary e.strip = isOpenUnary e := by
  cases e <;> rfl

/-- A path has no comments in it, so `isSymbolPath` sees the same before and after `strip`. -/
theorem isSymbolPath_strip (e : Expr) : e.strip.isSymbolPath = e.isSymbolPath := by
  induction e using isSymbolPath.induct with
  | case1 name => rfl
  | case2 left right ih => simp only [strip, isSymbolPath, ih, isSymbol_strip]
  | case3 e hsymbol hdot =>
    cases e with
    | symbol name => exact absurd rfl (hsymbol name)
    | binary op left right => cases op <;> first | rfl | exact absurd rfl (hdot left right)
    | _ => rfl

/-- What `binary?` refuses does not depend on comments, and `strip` goes through what it builds. -/
theorem strip_binary? (op : BinaryOp) (left right : Expr) :
    (binary? op left right).map strip = binary? op left.strip right.strip := by
  cases op with
  | new =>
    simp only [binary?, isSymbolPath_strip, isList_strip]
    split
    · rfl
    · split <;> rfl
  | dot =>
    simp only [binary?, isSymbol_strip]
    split <;> rfl
  | _ => rfl

/-- The same of `unary?`. -/
theorem strip_unary? (op : UnaryOp) (operand : Expr) :
    (unary? op operand).map strip = unary? op operand.strip := by
  simp only [unary?, isSymbolPath_strip]
  split <;> rfl

/-- The same of `call?`. -/
theorem strip_call? (callee arguments : Expr) :
    (call? callee arguments).map strip = call? callee.strip arguments.strip := by
  simp only [call?, isList_strip]
  split <;> rfl

end Expr

/-! ## Readers that are alike -/

/-- A token without its place: its `kind` and its `text`. -/
def Token.word (t : Token) : TokenKind × String :=
  (t.kind, t.text)

theorem Token.kind_eq_of_word {t t' : Token} (h : t.word = t'.word) : t.kind = t'.kind :=
  congrArg Prod.fst h

theorem Token.text_eq_of_word {t t' : Token} (h : t.word = t'.word) : t.text = t'.text :=
  congrArg Prod.snd h

/-- Errors with the same message, wherever they are. Errors that no text causes have no place
and are equal. -/
def Error.Alike : Error → Error → Prop
  | .source e, .source e' => e.message = e'.message
  | e, e' => e = e'

theorem Error.Alike.refl (e : Error) : e.Alike e := by
  cases e <;> rfl

/-- A message names a token without its place. -/
theorem SyntaxError.message_eq_of_word {t t' : Token} (h : t.word = t'.word) (c : Complaint) :
    SyntaxError.message { token := t, complaint := c } =
      SyntaxError.message { token := t', complaint := c } := by
  obtain ⟨k, text, loc⟩ := t
  obtain ⟨k', text', loc'⟩ := t'
  obtain ⟨rfl, rfl⟩ := Prod.mk.inj h
  cases c <;> rfl

namespace Reader

/-- The tokens that a reader has before it, as `Token.word`. -/
def words (r : Reader) : List (TokenKind × String) :=
  r.current.word :: r.ahead.map fun w => w.token.word

/-- They are the words of the reader's `tape`. -/
theorem words_tape (r : Reader) : r.tape.words = r.words := by
  have hahead : Tape.words (r.ahead.flatMap Word.pieces) = r.ahead.map fun w => w.token.word := by
    induction r.ahead with
    | nil => rfl
    | cons w ws ih => simp [Word.pieces, Tape.words, Token.word, ih]
  simp [tape, words, Tape.words, Token.word, hahead]

/-- Readers with the same `words` before them. Their places and the comments that wait may
differ. -/
def Alike (r s : Reader) : Prop :=
  r.words = s.words

variable {r s : Reader}

theorem Alike.current (h : r.Alike s) : r.current.word = s.current.word :=
  (List.cons.inj h).1

/-- Readers that are `Alike` have the same number of tokens to go. -/
theorem Alike.length_ahead (h : r.Alike s) : r.ahead.length = s.ahead.length := by
  simpa using congrArg List.length (List.cons.inj h).2

/-- Readers that are alike go on together. -/
theorem Alike.next (h : r.Alike s) : r.next.Alike s.next := by
  have hahead := (List.cons.inj h).2
  cases hr : r.ahead with
  | nil =>
    have hs : s.ahead = [] := by simpa [hr] using hahead.symm
    simpa [Reader.next, hr, hs] using h
  | cons w ws =>
    cases hs : s.ahead with
    | nil => simp [hr, hs] at hahead
    | cons w' ws' =>
      rw [hr, hs] at hahead
      simpa [Reader.next, hr, hs, Alike, words] using hahead

end Reader

/-! ## Parsers that agree -/

namespace Parser

variable {α β γ δ : Type}

/-- On readers that are alike, both parsers succeed with results that are the same under `f` and
leave the readers alike, or both fail with the same message. -/
def Agree (f : α → γ) (x y : Parser α) : Prop :=
  ∀ ⦃r s : Reader⦄, r.Alike s →
    match x.run r, y.run s with
    | .ok (a, r'), .ok (b, s') => f a = f b ∧ r'.Alike s'
    | .error e, .error e' => e.Alike e'
    | _, _ => False

variable {f : α → γ} {x x' y y' : Parser α}

theorem Agree.pure {a b : α} (h : f a = f b) : Agree f (pure a) (pure b) :=
  fun _ _ hrs => ⟨h, hrs⟩

/-- Parsers that `Agree` under `h` may be followed by parsers that agree on whatever is the same
under `h`. The lemmas about rules are put together by this one. -/
theorem Agree.bind {h : β → δ} {x x' : Parser β} {k k' : β → Parser α} (hx : Agree h x x')
    (hk : ∀ a b, h a = h b → Agree f (k a) (k' b)) : Agree f (x >>= k) (x' >>= k') := by
  -- only where both parsers succeed is there a second step to compare
  intro r s hrs
  have hxr := hx hrs
  simp only [StateT.run_bind]
  cases hr : x.run r with
  | ok p =>
    cases hs : x'.run s with
    | ok q =>
      rw [hr, hs] at hxr
      exact hk p.1 q.1 hxr.1 hxr.2
    | error e =>
      rw [hr, hs] at hxr
      exact hxr.elim
  | error e =>
    cases hs : x'.run s with
    | ok q =>
      rw [hr, hs] at hxr
      exact hxr.elim
    | error e' =>
      rw [hr, hs] at hxr
      exact hxr

/-- Parsers that agree on the whole result go on together from it. -/
theorem Agree.andThen {x x' : Parser β} {k k' : β → Parser α} (hx : Agree id x x')
    (hk : ∀ a, Agree f (k a) (k' a)) : Agree f (x >>= k) (x' >>= k') := by
  refine hx.bind fun a b h => ?_
  obtain rfl : a = b := h
  exact hk a

/-- A choice that both sides make by the same condition. -/
theorem Agree.ite {c : Prop} [Decidable c] (hx : c → Agree f x x') (hy : ¬c → Agree f y y') :
    Agree f (if c then x else y) (if c then x' else y') := by
  by_cases h : c
  · simpa [h] using hx h
  · simpa [h] using hy h

/-- A choice by what has been read, as `is` and `take` give it. -/
theorem Agree.cond {b : Bool} (hx : Agree f x x') (hy : Agree f y y') :
    Agree f (if b then x else y) (if b then x' else y') :=
  .ite (fun _ => hx) fun _ => hy

theorem agree_kind : Agree id kind kind :=
  fun _ _ hrs => ⟨Token.kind_eq_of_word hrs.current, hrs⟩

/-- The token at hand is the same up to its place. -/
theorem agree_current : Agree Token.word current current :=
  fun _ _ hrs => ⟨hrs.current, hrs⟩

theorem agree_is (k : TokenKind) : Agree id (is k) (is k) :=
  fun _ _ hrs => ⟨by rw [Token.kind_eq_of_word hrs.current], hrs⟩

/-- Both readers leave the same token behind, up to its place. -/
theorem agree_advance : Agree Token.word advance advance :=
  fun _ _ hrs => ⟨hrs.current, hrs.next⟩

/-- `complain` writes a message about the token and not about its place. -/
theorem agree_complain {t t' : Token} (h : t.word = t'.word) (c : Complaint) :
    Agree f (complain t c) (complain t' c) :=
  fun _ _ _ => SyntaxError.message_eq_of_word h c

theorem agree_unexpected (what : Expectation) : Agree f (unexpected what) (unexpected what) :=
  agree_current.bind fun _ _ h => agree_complain h _

theorem agree_take (k : TokenKind) : Agree id (take k) (take k) :=
  (agree_is k).andThen fun _ =>
    .cond (agree_advance.bind fun _ _ _ => .pure rfl) (.pure rfl)

theorem agree_consume (k : TokenKind) (what : Expectation) :
    Agree Token.word (consume k what) (consume k what) :=
  (agree_is k).andThen fun _ => .cond agree_advance (agree_unexpected what)

/-- The comments that wait are the one thing that readers which are `Alike` do not agree on. -/
theorem agree_takeComments : Agree (fun _ => ()) takeComments takeComments :=
  fun _ _ hrs => ⟨rfl, hrs⟩

theorem agree_exhausted : Agree f .exhausted .exhausted :=
  fun _ _ _ => .refl _

/-- Checked constructions of what is the same under `f` agree: `build` fails on both sides or on
neither. -/
theorem agree_build {a b : Except Defect α} (h : a.map f = b.map f) :
    Agree f (build a) (build b) := by
  cases a with
  | ok u =>
    cases b with
    | ok v => exact .pure (Except.ok.inj h)
    | error e => cases h
  | error e =>
    cases b with
    | ok v => cases h
    | error e' =>
      cases h
      exact fun _ _ _ => .refl _

end Parser

/-! ## Rules -/

/-- The parsers of a `Grammar` do the same on readers that are alike, and on expressions that
differ in comments alone where they read on from one. -/
structure Grammar.Agrees (g : Grammar) : Prop where
  expr : g.expr.Agree Expr.strip g.expr
  sequenceFrom : ∀ {a b : Expr}, a.strip = b.strip →
    (g.sequenceFrom a).Agree Expr.strip (g.sequenceFrom b)
  assignment : g.assignment.Agree Expr.strip g.assignment
  climb : ∀ bound, (g.climb bound).Agree Expr.strip (g.climb bound)
  climbFrom : ∀ bound {a b : Expr}, a.strip = b.strip →
    (g.climbFrom bound a).Agree Expr.strip (g.climbFrom bound b)
  unary : g.unary.Agree Expr.strip g.unary
  memberFrom : ∀ {a b : Expr}, a.strip = b.strip →
    (g.memberFrom a).Agree Expr.strip (g.memberFrom b)
  pathFrom : ∀ {a b : Expr}, a.strip = b.strip →
    (g.pathFrom a).Agree Expr.strip (g.pathFrom b)
  elements : ∀ close afterComma,
    (g.elements close afterComma).Agree (Prod.map Expr.strips id) (g.elements close afterComma)
  entries : g.entries.Agree Entry.strips g.entries
  names : g.names.Agree id g.names
  declarations : g.declarations.Agree Declaration.strips g.declarations
  conditional : g.conditional.Agree Statement.strip g.conditional
  imports : g.imports.Agree id g.imports

/-- Where the depth is used up every parser fails, and all with the same error. -/
theorem Grammar.agrees_exhausted : Grammar.exhausted.Agrees where
  expr := Parser.agree_exhausted
  sequenceFrom _ := Parser.agree_exhausted
  assignment := Parser.agree_exhausted
  climb _ := Parser.agree_exhausted
  climbFrom _ _ _ _ := Parser.agree_exhausted
  unary := Parser.agree_exhausted
  memberFrom _ := Parser.agree_exhausted
  pathFrom _ := Parser.agree_exhausted
  elements _ _ := Parser.agree_exhausted
  entries := Parser.agree_exhausted
  names := Parser.agree_exhausted
  declarations := Parser.agree_exhausted
  conditional := Parser.agree_exhausted
  imports := Parser.agree_exhausted

namespace Rules

open Diglot.Parser

variable {d : Dialect} {g : Grammar} {a b : Expr}

/-- `names` gives texts of tokens, so the two sides give the same list. -/
theorem agree_names (hg : g.Agrees) : Agree id (names g) (names g) := by
  refine (agree_is _).andThen fun found => .cond ?_ (.pure rfl)
  refine agree_advance.bind fun t t' ht => ?_
  rw [Token.text_eq_of_word ht]
  exact (agree_take _).andThen fun more =>
    .cond (hg.names.andThen fun ns => .pure rfl) (.pure rfl)

/-- Two blocks are the same after `Declaration.strips`. -/
theorem agree_block (hg : g.Agrees) (context : BlockContext) :
    Agree Declaration.strips (block d g context) (block d g context) := by
  refine (agree_consume _ _).bind fun _ _ _ => ?_
  refine hg.declarations.bind fun body body' hbody => ?_
  exact (agree_consume _ _).bind fun _ _ _ => .pure hbody

theorem agree_signature (hg : g.Agrees) : Agree id (signature g) (signature g) := by
  refine (agree_consume _ _).bind fun _ _ _ => ?_
  refine hg.names.andThen fun params => ?_
  exact (agree_consume _ _).bind fun _ _ _ => .pure rfl

/-! ### Operands -/

/-- `operand` refuses an expression by its form, which has no comments in it. -/
theorem agree_operand {t t' : Token} (ht : t.word = t'.word) (h : a.strip = b.strip) :
    Agree Expr.strip (operand t a) (operand t' b) := by
  have hform : a.isArrow = b.isArrow := by
    rw [← a.isArrow_strip, h, b.isArrow_strip]
  rw [operand, operand, hform]
  exact .cond (agree_complain ht _) (.pure h)

theorem agree_binary? (op : BinaryOp) {a' b' : Expr} (h : a.strip = b.strip)
    (h' : a'.strip = b'.strip) :
    Agree Expr.strip (build (Expr.binary? op a a')) (build (Expr.binary? op b b')) :=
  agree_build (by rw [Expr.strip_binary?, Expr.strip_binary?, h, h'])

theorem agree_unary? (op : UnaryOp) (h : a.strip = b.strip) :
    Agree Expr.strip (build (Expr.unary? op a)) (build (Expr.unary? op b)) :=
  agree_build (by rw [Expr.strip_unary?, Expr.strip_unary?, h])

theorem agree_memberName : Agree Expr.strip memberName memberName := by
  refine agree_kind.andThen fun k => .cond ?_ (agree_unexpected _)
  refine agree_advance.bind fun t t' ht => .pure ?_
  rw [Token.text_eq_of_word ht]

/-- `arguments` gives a list with the same elements after `Expr.strip`. -/
theorem agree_arguments (hg : g.Agrees) : Agree Expr.strip (arguments g) (arguments g) := by
  refine (agree_consume _ _).bind fun _ _ _ => ?_
  refine (hg.elements _ _).bind fun (es, c) (es', c') h => ?_
  obtain ⟨hes, rfl⟩ : Expr.strips es = Expr.strips es' ∧ c = c' := Prod.mk.inj h
  exact (agree_consume _ _).bind fun _ _ _ => .pure (by rw [Expr.strip, Expr.strip, hes])

/-- `arrowParams` asks only whether its expressions are names. -/
theorem arrowParams_strips (t : Token) (es : List Expr) :
    arrowParams t (Expr.strips es) = arrowParams t es := by
  induction es with
  | nil => rfl
  | cons e es ih =>
    cases e with
    | symbol name => simp only [Expr.strips, Expr.strip, arrowParams, ih]
    | _ => rfl

/-- Names before an arrow are told from other expressions without regard to comments. -/
theorem agree_arrowParams {t t' : Token} (ht : t.word = t'.word) {es es' : List Expr}
    (h : Expr.strips es = Expr.strips es') :
    Agree id (arrowParams t es) (arrowParams t' es') := by
  rw [← arrowParams_strips t es, h, arrowParams_strips]
  clear h
  induction es' with
  | nil => exact .pure rfl
  | cons e es' ih =>
    cases e with
    | symbol name => exact ih.andThen fun params => .pure rfl
    | _ => exact agree_complain ht _

/-- An arrow function is the same after `Expr.strip` if its parameters and its body are. -/
theorem agree_arrow (hg : g.Agrees) {es es' : List Expr} (h : Expr.strips es = Expr.strips es') :
    Agree Expr.strip (arrow d g es) (arrow d g es') := by
  refine agree_advance.bind fun t t' ht => ?_
  refine (agree_arrowParams ht h).andThen fun params => ?_
  refine (agree_is _).andThen fun opens => .cond ?_ ?_
  · exact (agree_block hg _).bind fun body body' hbody =>
      .pure (by rw [Expr.strip, Expr.strip, hbody])
  · exact hg.assignment.bind fun body body' hbody =>
      .pure (by rw [Expr.strip, Expr.strip, hbody])

/-- What stands in parentheses is a list, an `Expr.grouping` or the parameters of an arrow
function. Which of them it is depends on the tokens alone. -/
theorem agree_parenthesized (hg : g.Agrees) :
    Agree Expr.strip (parenthesized d g) (parenthesized d g) := by
  refine agree_advance.bind fun _ _ _ => ?_
  refine (hg.elements _ _).bind fun (es, c) (es', c') h => ?_
  obtain ⟨hes, rfl⟩ : Expr.strips es = Expr.strips es' ∧ c = c' := Prod.mk.inj h
  refine (agree_consume _ _).bind fun _ _ _ => ?_
  refine (agree_is _).andThen fun isArrow => .cond (agree_arrow hg hes) ?_
  -- the number of elements decides, and it is the same
  match es, es', hes with
  | [], [], _ => exact agree_unexpected _
  | [e], [e'], hes =>
    cases c with
    | false => exact .pure (by rw [Expr.strip, Expr.strip, (List.cons.inj hes).1])
    | true => exact .pure (by rw [Expr.strip, Expr.strip, hes])
  | _ :: _ :: _, _ :: _ :: _, hes => exact .pure (by rw [Expr.strip, Expr.strip, hes])
  | [_], _ :: _ :: _, hes => cases (List.cons.inj hes).2
  | _ :: _ :: _, [_], hes => cases (List.cons.inj hes).2

theorem agree_object (hg : g.Agrees) : Agree Expr.strip (object g) (object g) := by
  refine agree_advance.bind fun _ _ _ => ?_
  refine hg.entries.bind fun es es' hes => ?_
  exact (agree_consume _ _).bind fun _ _ _ => .pure (by rw [Expr.strip, Expr.strip, hes])

theorem agree_array (hg : g.Agrees) : Agree Expr.strip (array g) (array g) := by
  refine agree_advance.bind fun _ _ _ => ?_
  refine (hg.elements _ _).bind fun (es, c) (es', c') h => ?_
  have hes : Expr.strips es = Expr.strips es' := (Prod.mk.inj h).1
  exact (agree_consume _ _).bind fun _ _ _ => .pure (by rw [Expr.strip, Expr.strip, hes])

/-- A function, whether or not there is a name before its parameters. -/
theorem agree_functionLiteral (hg : g.Agrees) :
    Agree Expr.strip (functionLiteral d g) (functionLiteral d g) := by
  -- the name may be missing, and the rest is the same
  have hrest : ∀ name, Agree Expr.strip
      (do
        let params ← signature g
        let body ← block d g .functionBody
        return .function name params body)
      (do
        let params ← signature g
        let body ← block d g .functionBody
        return .function name params body) := fun name =>
    (agree_signature hg).andThen fun params => (agree_block hg _).bind fun body body' hbody =>
      .pure (by rw [Expr.strip, Expr.strip, hbody])
  refine agree_advance.bind fun _ _ _ => ?_
  refine (agree_is _).andThen fun named => .cond ?_ (hrest none)
  refine agree_advance.bind fun t t' ht => ?_
  rw [Token.text_eq_of_word ht]
  exact hrest _

theorem agree_literal (v : Literal) : Agree Expr.strip (literal v) (literal v) :=
  agree_advance.bind fun _ _ _ => .pure rfl

/-- A number is refused by its text, which both sides have. -/
theorem agree_fixnum {t t' : Token} (ht : t.word = t'.word) :
    Agree Expr.strip (fixnum t) (fixnum t') := by
  rw [fixnum, fixnum, Token.text_eq_of_word ht]
  exact .ite (fun _ => agree_literal _) fun _ => agree_complain ht _

/-- `primary` chooses by the kind of the token at hand, so both sides make the same choice. -/
theorem agree_primary (hg : g.Agrees) : Agree Expr.strip (primary d g) (primary d g) := by
  refine agree_current.bind fun t t' ht => ?_
  rw [Token.kind_eq_of_word ht, Token.text_eq_of_word ht]
  split
  · exact agree_parenthesized hg
  · exact agree_object hg
  · exact agree_array hg
  · exact agree_advance.bind fun _ _ _ => .pure rfl
  · exact agree_literal _
  · exact agree_fixnum ht
  · exact agree_literal _
  · exact agree_literal _
  · exact agree_literal _
  · exact agree_complain ht _
  · exact agree_complain ht _
  · exact .ite (fun _ => agree_functionLiteral hg) fun _ => agree_unexpected _

/-! ### Values and operators -/

/-- `pathFrom` goes on with the same members from expressions that differ in comments alone. -/
theorem agree_pathFrom (hg : g.Agrees) (h : a.strip = b.strip) :
    Agree Expr.strip (pathFrom g a) (pathFrom g b) := by
  refine (agree_take _).andThen fun more => .cond ?_ (.pure h)
  refine agree_memberName.bind fun n n' hn => ?_
  exact (agree_binary? .dot h hn).bind fun _ _ hpath => hg.pathFrom hpath

/-- What comes after `new`: the two sides agree on the value and on whether there are arguments. -/
theorem agree_construction (hg : g.Agrees) :
    Agree (Prod.map Expr.strip id) (construction g) (construction g) := by
  refine agree_advance.bind fun _ _ _ => ?_
  refine (agree_consume _ _).bind fun t t' ht => ?_
  rw [Token.text_eq_of_word ht]
  refine (agree_pathFrom hg rfl).bind fun target target' htarget => ?_
  refine (agree_is _).andThen fun called => .cond ?_ ?_
  · refine (agree_arguments hg).bind fun args args' hargs => ?_
    exact (agree_binary? .new htarget hargs).bind fun _ _ h => .pure (Prod.ext h rfl)
  · exact (agree_unary? .new htarget).bind fun _ _ h => .pure (Prod.ext h rfl)

/-- `memberFrom` goes on with a call, an index or a member, and stops at the same token. -/
theorem agree_memberFrom (hg : g.Agrees) (h : a.strip = b.strip) :
    Agree Expr.strip (memberFrom g a) (memberFrom g b) := by
  refine agree_kind.andThen fun k => ?_
  split
  · refine agree_current.bind fun t t' ht => ?_
    refine (agree_operand ht h).bind fun v v' hv => ?_
    refine (agree_arguments hg).bind fun args args' hargs => ?_
    refine Agree.bind (agree_build ?_) fun _ _ hcall => hg.memberFrom hcall
    rw [Expr.strip_call?, Expr.strip_call?, hv, hargs]
  · refine agree_advance.bind fun t t' ht => ?_
    refine (agree_operand ht h).bind fun v v' hv => ?_
    refine hg.expr.bind fun p p' hp => ?_
    refine (agree_consume _ _).bind fun _ _ _ => hg.memberFrom ?_
    rw [Expr.strip, Expr.strip, hv, hp]
  · refine agree_advance.bind fun t t' ht => ?_
    refine (agree_operand ht h).bind fun v v' hv => ?_
    refine agree_memberName.bind fun n n' hn => ?_
    exact (agree_binary? .dot hv hn).bind fun _ _ hmember => hg.memberFrom hmember
  · exact .pure h

theorem agree_member (hg : g.Agrees) : Agree Expr.strip (member d g) (member d g) := by
  refine (agree_is _).andThen fun isNew => .cond ?_ ?_
  · refine (agree_construction hg).bind fun (v, bare) (v', bare') h => ?_
    obtain ⟨hv, rfl⟩ : v.strip = v'.strip ∧ bare = bare' := Prod.mk.inj h
    exact .cond (.pure hv) (agree_memberFrom hg hv)
  · exact (agree_primary hg).bind fun _ _ hv => agree_memberFrom hg hv

theorem agree_step (hg : g.Agrees) : Agree Expr.strip (step d g) (step d g) := by
  refine (agree_member hg).bind fun v v' hv => ?_
  refine agree_kind.andThen fun k => ?_
  split
  · refine agree_advance.bind fun t t' ht => ?_
    exact (agree_operand ht hv).bind fun _ _ h => .pure (by rw [Expr.strip, Expr.strip, h])
  · exact .pure hv

/-- An operator is read before its operand, and the operand is checked by its form. -/
theorem agree_unary (hg : g.Agrees) : Agree Expr.strip (unary d g) (unary d g) := by
  refine agree_kind.andThen fun k => ?_
  split
  · refine agree_advance.bind fun t t' ht => ?_
    refine hg.unary.bind fun e e' he => ?_
    exact (agree_operand ht he).bind fun _ _ h => agree_unary? _ h
  · exact agree_step hg

/-- `climbFrom` compares the operator at hand with the bound, and the operator is the same on
both sides. -/
theorem agree_climbFrom (hg : g.Agrees) (bound : Precedence) (h : a.strip = b.strip) :
    Agree Expr.strip (climbFrom g bound a) (climbFrom g bound b) := by
  refine agree_kind.andThen fun k => ?_
  split
  · exact .pure h
  · next op _ =>
    refine .ite (fun _ => .pure h) fun _ => ?_
    refine agree_advance.bind fun t t' ht => ?_
    refine (agree_operand ht h).bind fun l l' hl => ?_
    have hform : isOpenUnary l = isOpenUnary l' := by
      rw [← l.isOpenUnary_strip, hl, l'.isOpenUnary_strip]
    rw [hform]
    refine .ite (fun _ => agree_complain ht _) fun _ => ?_
    refine (hg.climb _).bind fun e e' he => ?_
    refine (agree_operand ht he).bind fun r r' hr => ?_
    exact (agree_binary? op hl hr).bind fun _ _ hjoined => hg.climbFrom bound hjoined

theorem agree_climb (hg : g.Agrees) (bound : Precedence) :
    Agree Expr.strip (climb d g bound) (climb d g bound) :=
  (agree_unary hg).bind fun _ _ h => agree_climbFrom hg bound h

/-- Whether `assignment` finds a ternary, an assignment or neither depends on the token after
the first operand. -/
theorem agree_assignment (hg : g.Agrees) : Agree Expr.strip (assignment d g) (assignment d g) := by
  refine (agree_climb hg _).bind fun l l' hl => ?_
  refine agree_kind.andThen fun k => ?_
  split
  · refine agree_advance.bind fun t t' ht => ?_
    rw [Token.text_eq_of_word ht]
    refine Agree.andThen (agree_build rfl) fun op => ?_
    refine (agree_operand ht hl).bind fun l l' hl => ?_
    exact hg.assignment.bind fun r r' hr => agree_binary? op hl hr
  · refine agree_advance.bind fun t t' ht => ?_
    refine (agree_operand ht hl).bind fun test test' htest => ?_
    refine hg.assignment.bind fun yes yes' hyes => ?_
    refine (agree_consume _ _).bind fun _ _ _ => ?_
    refine hg.assignment.bind fun no no' hno => .pure ?_
    rw [Expr.strip, Expr.strip, htest, hyes, hno]
  · exact .pure hl

theorem agree_sequenceFrom (hg : g.Agrees) (h : a.strip = b.strip) :
    Agree Expr.strip (sequenceFrom g a) (sequenceFrom g b) := by
  refine (agree_take _).andThen fun more => .cond ?_ (.pure h)
  refine hg.assignment.bind fun e e' he => ?_
  exact (agree_binary? .comma h he).bind fun _ _ hjoined => hg.sequenceFrom hjoined

theorem agree_expr (hg : g.Agrees) : Agree Expr.strip (expr d g) (expr d g) :=
  (agree_assignment hg).bind fun _ _ h => agree_sequenceFrom hg h

/-! ### Lists -/

/-- `elements` gives elements that are the same after `Expr.strips` and the same word on the
last comma. -/
theorem agree_elements (hg : g.Agrees) (close : TokenKind) (afterComma : Bool) :
    Agree (Prod.map Expr.strips id) (elements d g close afterComma)
      (elements d g close afterComma) := by
  refine agree_kind.andThen fun k => .ite (fun _ => .pure rfl) fun _ => ?_
  refine (agree_assignment hg).bind fun e e' he => ?_
  refine (agree_take _).andThen fun more => .cond ?_ (.pure ?_)
  · refine (hg.elements _ _).bind fun (es, c) (es', c') h => .pure ?_
    obtain ⟨hes, rfl⟩ : Expr.strips es = Expr.strips es' ∧ c = c' := Prod.mk.inj h
    simp only [Prod.map, Expr.strips, he, hes]
  · simp only [Prod.map, Expr.strips, he]

/-- Keys hold no comments, so they are the same altogether. -/
theorem agree_entryKey : Agree id entryKey entryKey := by
  refine agree_current.bind fun t t' ht => ?_
  rw [Token.kind_eq_of_word ht, Token.text_eq_of_word ht]
  split
  · exact agree_advance.bind fun _ _ _ => .pure rfl
  · exact agree_advance.bind fun _ _ _ => .pure rfl
  · exact agree_unexpected _

/-- An entry with or without a value, by the token after its key. -/
theorem agree_entry (hg : g.Agrees) : Agree Entry.strip (entry d g) (entry d g) := by
  refine agree_entryKey.andThen fun key => ?_
  refine (agree_take _).andThen fun valued => .cond ?_ (agree_build rfl)
  refine (agree_assignment hg).bind fun v v' hv => agree_build ?_
  cases h : Key.ofExpr? key with
  | none => simp only [Entry.ofExpr?, h, Except.map]
  | some k => simp only [Entry.ofExpr?, h, Except.map, Entry.strip, hv]

theorem agree_entries (hg : g.Agrees) : Agree Entry.strips (entries d g) (entries d g) := by
  refine agree_kind.andThen fun k => .ite (fun _ => .pure rfl) fun _ => ?_
  refine (agree_entry hg).bind fun e e' he => ?_
  refine (agree_take _).andThen fun more => .cond ?_ (.pure ?_)
  · refine hg.entries.bind fun es es' hes => .pure ?_
    rw [Entry.strips, Entry.strips, he, hes]
  · simp only [Entry.strips, he]

/-! ### Statements -/

/-- `endStatement` gives nothing and either takes a token or looks at the next one. -/
theorem agree_endStatement (what : Expectation) :
    Agree id (endStatement d what) (endStatement d what) := by
  refine (agree_take _).andThen fun found => .cond (.pure rfl) ?_
  exact agree_kind.andThen fun k => .cond (.pure rfl) (agree_unexpected _)

theorem agree_semicolon : Agree id (semicolon d) (semicolon d) :=
  agree_endStatement _

theorem agree_isPlainAssign : Agree id isPlainAssign isPlainAssign := by
  refine agree_kind.andThen fun k => ?_
  refine agree_current.bind fun t t' ht => .pure ?_
  rw [Token.text_eq_of_word ht]

theorem agree_someNames (hg : g.Agrees) : Agree id (someNames g) (someNames g) :=
  (agree_names hg).andThen fun _ => .cond (agree_unexpected _) (.pure rfl)

/-- A conditional of the brace dialect: the test, the branch and perhaps another conditional or
block. -/
theorem agree_braceConditional (hg : g.Agrees) :
    Agree Statement.strip (braceConditional d g) (braceConditional d g) := by
  refine (agree_consume _ _).bind fun _ _ _ => ?_
  refine (agree_expr hg).bind fun test test' htest => ?_
  refine (agree_consume _ _).bind fun _ _ _ => ?_
  refine (agree_block hg _).bind fun body body' hbody => ?_
  refine (agree_take _).andThen fun hasOther => .cond ?_ (.pure ?_)
  · refine (agree_take _).andThen fun isTest => .cond ?_ ?_
    · refine hg.conditional.bind fun other other' hother => .pure ?_
      rw [Statement.strip, Statement.strip, htest, hbody, hother]
    · refine (agree_block hg _).bind fun other other' hother => .pure ?_
      simp only [Statement.strip, htest, hbody, hother]
  · rw [Statement.strip, Statement.strip, htest, hbody]

/-- The same in the block dialect, where the branches are told apart by words. -/
theorem agree_blockConditional (hg : g.Agrees) :
    Agree Statement.strip (blockConditional d g) (blockConditional d g) := by
  refine (agree_expr hg).bind fun test test' htest => ?_
  refine (agree_consume _ _).bind fun _ _ _ => ?_
  refine hg.declarations.bind fun body body' hbody => ?_
  refine (agree_take _).andThen fun isTest => .cond ?_ ?_
  · refine hg.conditional.bind fun other other' hother => .pure ?_
    rw [Statement.strip, Statement.strip, htest, hbody, hother]
  · refine (agree_take _).andThen fun hasOther => .cond ?_ ?_
    · refine hg.declarations.bind fun other other' hother => ?_
      refine (agree_consume _ _).bind fun _ _ _ => .pure ?_
      simp only [Statement.strip, htest, hbody, hother]
    · refine (agree_consume _ _).bind fun _ _ _ => .pure ?_
      rw [Statement.strip, Statement.strip, htest, hbody]

theorem agree_conditional (hg : g.Agrees) :
    Agree Statement.strip (conditional d g) (conditional d g) := by
  cases d with
  | brace => exact agree_braceConditional hg
  | block => exact agree_blockConditional hg

/-- A loop is the same if its test and its body are. -/
theorem agree_whileLoop (hg : g.Agrees) :
    Agree Statement.strip (whileLoop d g) (whileLoop d g) := by
  cases d with
  | brace =>
    refine (agree_consume _ _).bind fun _ _ _ => ?_
    refine (agree_expr hg).bind fun test test' htest => ?_
    refine (agree_consume _ _).bind fun _ _ _ => ?_
    refine (agree_block hg _).bind fun body body' hbody => .pure ?_
    rw [Statement.strip, Statement.strip, htest, hbody]
  | block =>
    refine (agree_expr hg).bind fun test test' htest => ?_
    refine (agree_block hg _).bind fun body body' hbody => .pure ?_
    rw [Statement.strip, Statement.strip, htest, hbody]

theorem agree_loopNames (hg : g.Agrees) (bracketed : Bool) :
    Agree id (loopNames g bracketed) (loopNames g bracketed) := by
  refine (agree_someNames hg).andThen fun names => .cond ?_ (.pure rfl)
  exact (agree_consume _ _).bind fun _ _ _ => .pure rfl

/-- What a loop's header says, without the comments in its collection. -/
def stripHeader (header : Option VarKeyword × List String × Bool × Expr) :
    Option VarKeyword × List String × Bool × Expr :=
  (header.1, header.2.1, header.2.2.1, header.2.2.2.strip)

/-- The header of a loop after its keyword. All of it but the collection is the same without
`strip`. -/
theorem agree_loopHeaderFrom (hg : g.Agrees) (keyword : Option VarKeyword) :
    Agree stripHeader (loopHeaderFrom d g keyword) (loopHeaderFrom d g keyword) := by
  refine (agree_take _).andThen fun bracketed => ?_
  refine (agree_loopNames hg _).andThen fun names => ?_
  refine (agree_consume _ _).bind fun _ _ _ => ?_
  exact (agree_expr hg).bind fun c c' hc => .pure (by simp only [stripHeader, hc])

theorem agree_loopHeader (hg : g.Agrees) :
    Agree stripHeader (loopHeader d g) (loopHeader d g) := by
  rw [loopHeader_eq]
  refine agree_kind.andThen fun k => .cond ?_ (agree_loopHeaderFrom hg _)
  exact agree_advance.bind fun _ _ _ => agree_loopHeaderFrom hg _

/-- A loop over a collection, from what `stripHeader` leaves of its header. -/
theorem agree_forLoop (hg : g.Agrees) : Agree Statement.strip (forLoop d g) (forLoop d g) := by
  -- the header is read in parentheses or without them, and the body is the same
  have hbody : ∀ {header header' : Option VarKeyword × List String × Bool × Expr} {context},
      stripHeader header = stripHeader header' → Agree Statement.strip
        (do
          let body ← block d g context
          return .forLoop header.1 header.2.1 header.2.2.2 body header.2.2.1)
        (do
          let body ← block d g context
          return .forLoop header'.1 header'.2.1 header'.2.2.2 body header'.2.2.1) := by
    intro ⟨keyword, names, bracketed, c⟩ ⟨keyword', names', bracketed', c'⟩ context h
    simp only [stripHeader, Prod.mk.injEq] at h
    obtain ⟨rfl, rfl, rfl, hc⟩ := h
    refine (agree_block hg _).bind fun body body' hbody => .pure ?_
    rw [Statement.strip, Statement.strip, hc, hbody]
  cases d with
  | brace =>
    refine (agree_consume _ _).bind fun _ _ _ => ?_
    refine (agree_loopHeader hg).bind fun header header' h => ?_
    exact (agree_consume _ _).bind fun _ _ _ => hbody h
  | block => exact (agree_loopHeader hg).bind fun header header' h => hbody h

/-- `statement?` chooses by the kind of the token at hand. It gives nothing on both sides or a
statement on both. -/
theorem agree_statement? (hg : g.Agrees) :
    Agree (Option.map Statement.strip) (statement? d g) (statement? d g) := by
  -- a return is completed in the same way with and without a value
  have hret : ∀ {v v' : Option Expr}, v.map Expr.strip = v'.map Expr.strip →
      Agree (Option.map Statement.strip) (do semicolon d; return some (.ret v))
        (do semicolon d; return some (.ret v')) := by
    intro v v' hv
    refine agree_semicolon.andThen fun _ => .pure ?_
    simp only [Option.map_some, Statement.strip_ret, hv]
  refine agree_kind.andThen fun k => ?_
  split
  · refine agree_advance.bind fun _ _ _ => ?_
    exact (agree_conditional hg).bind fun _ _ h => .pure (congrArg some h)
  · refine agree_advance.bind fun _ _ _ => ?_
    exact (agree_whileLoop hg).bind fun _ _ h => .pure (congrArg some h)
  · refine agree_advance.bind fun _ _ _ => ?_
    exact (agree_forLoop hg).bind fun _ _ h => .pure (congrArg some h)
  · refine agree_advance.bind fun _ _ _ => ?_
    refine (agree_expr hg).bind fun e e' he => ?_
    exact agree_semicolon.andThen fun _ => .pure (by simp only [Option.map, Statement.strip, he])
  · refine agree_advance.bind fun _ _ _ => ?_
    refine agree_kind.andThen fun k => .cond ?_ (hret rfl)
    exact (agree_expr hg).bind fun e e' he => hret (congrArg some he)
  · refine .ite (fun _ => ?_) fun _ => .cond ?_ (.pure rfl)
    · exact (agree_block hg _).bind fun body body' hbody =>
        .pure (by simp only [Option.map, Statement.strip, hbody])
    · refine (agree_expr hg).bind fun e e' he => ?_
      exact agree_semicolon.andThen fun _ => .pure (by simp only [Option.map, Statement.strip, he])

/-! ### Declarations -/

/-- The declaration of a function, from its name, parameters and body. -/
theorem agree_functionDeclaration (hg : g.Agrees) (exported isAsync : Bool) :
    Agree Declaration.strip (functionDeclaration d g exported isAsync)
      (functionDeclaration d g exported isAsync) := by
  refine agree_advance.bind fun _ _ _ => ?_
  refine (agree_consume _ _).bind fun t t' ht => ?_
  rw [Token.text_eq_of_word ht]
  refine (agree_signature hg).andThen fun params => ?_
  exact (agree_block hg _).bind fun body body' hbody =>
    .pure (by rw [Declaration.strip, Declaration.strip, hbody])

theorem agree_bracketedVariables (hg : g.Agrees) (keyword : VarKeyword) (exported : Bool) :
    Agree Declaration.strip (bracketedVariables d g keyword exported)
      (bracketedVariables d g keyword exported) := by
  refine (agree_someNames hg).andThen fun names => ?_
  refine (agree_consume _ _).bind fun _ _ _ => ?_
  refine agree_isPlainAssign.andThen fun assigned => .cond ?_ (agree_unexpected _)
  refine agree_advance.bind fun _ _ _ => ?_
  refine (agree_assignment hg).bind fun v v' hv => ?_
  exact agree_semicolon.andThen fun _ => .pure (by rw [Declaration.strip, Declaration.strip, hv])

/-- The declaration of a name, with a value or without, or of several names in brackets. -/
theorem agree_variableDeclaration (hg : g.Agrees) (keyword : VarKeyword) (exported : Bool) :
    Agree Declaration.strip (variableDeclaration d g keyword exported)
      (variableDeclaration d g keyword exported) := by
  refine agree_advance.bind fun _ _ _ => ?_
  refine (agree_take _).andThen fun bracketed => .cond (agree_bracketedVariables hg _ _) ?_
  refine (agree_consume _ _).bind fun t t' ht => ?_
  rw [Token.text_eq_of_word ht]
  have hend : ∀ {v v' : Option Expr}, v.map Expr.strip = v'.map Expr.strip →
      Agree Declaration.strip
        (do
          endStatement d (.variableEnd keyword)
          return .var keyword t'.text v exported)
        (do
          endStatement d (.variableEnd keyword)
          return .var keyword t'.text v' exported) := by
    intro v v' hv
    refine (agree_endStatement _).andThen fun _ => .pure ?_
    simp only [Declaration.strip_var, hv]
  refine agree_isPlainAssign.andThen fun assigned => .cond ?_ (hend rfl)
  refine agree_advance.bind fun _ _ _ => ?_
  exact (agree_assignment hg).bind fun v v' hv => hend (congrArg some hv)

theorem agree_exportComplaint {t t' : Token} (ht : t.word = t'.word) :
    Agree (Option.map Declaration.strip) (exportComplaint d t) (exportComplaint d t') := by
  refine agree_kind.andThen fun k => .cond (agree_complain ht _) ?_
  exact .cond (agree_complain ht _) (agree_unexpected _)

/-- `declarationFrom` after the words before a declaration. What both sides have of the first
word is its `Token.word`, which is enough for the complaint about it. -/
theorem agree_declarationFrom (hg : g.Agrees) {w w' : Option Token}
    (hw : w.map Token.word = w'.map Token.word) (isAsync : Bool) :
    Agree (Option.map Declaration.strip) (declarationFrom d g w isAsync)
      (declarationFrom d g w' isAsync) := by
  have hsome : w.isSome = w'.isSome := by
    simpa using congrArg Option.isSome hw
  refine agree_kind.andThen fun k => .ite (fun _ => ?_) fun _ => .ite (fun _ => ?_) fun _ => ?_
  · cases w <;> cases w' <;> try cases hsome
    · exact .pure rfl
    · exact agree_current.bind fun _ _ h => agree_complain h _
  · rw [hsome]
    exact (agree_functionDeclaration hg _ _).bind fun _ _ h => .pure (congrArg some h)
  · cases hk : varKeyword? k with
    | some keyword =>
      dsimp only
      rw [hsome]
      exact (agree_variableDeclaration hg _ _).bind fun _ _ h => .pure (congrArg some h)
    | none =>
      -- without a word before it this is a statement, and after one it is an error
      cases w <;> cases w' <;> try cases hsome
      · refine (agree_statement? hg).bind fun st st' hst => .pure ?_
        have hstrip : ∀ st : Option Statement, (st.map .statement).map Declaration.strip =
            (st.map Statement.strip).map fun st => [.statement st] := by
          intro st
          cases st <;> rfl
        rw [hstrip, hstrip, hst]
      · exact agree_exportComplaint (Option.some.inj hw)

theorem agree_declaration? (hg : g.Agrees) :
    Agree (Option.map Declaration.strip) (declaration? d g) (declaration? d g) := by
  have hrest : ∀ {w w' : Option Token}, w.map Token.word = w'.map Token.word →
      Agree (Option.map Declaration.strip) (declarationAfter d g w) (declarationAfter d g w') :=
    fun hw => (agree_take _).andThen fun isAsync => agree_kind.andThen fun k =>
      .cond (agree_unexpected _) (agree_declarationFrom hg hw isAsync)
  rw [declaration?_eq]
  refine (agree_is _).andThen fun exported => .cond ?_ (hrest rfl)
  exact agree_advance.bind fun t t' ht => hrest (congrArg some ht)

/-- `pendingComments` makes of comments a declaration that leaves no trace without them. -/
theorem agree_pendingComments : Agree Declaration.strips pendingComments pendingComments := by
  refine agree_takeComments.bind fun cs cs' _ => ?_
  cases cs <;> cases cs' <;> exact .pure rfl

/-- A block as `declarations` reads it, with the comments between its declarations. -/
theorem agree_declarations (hg : g.Agrees) :
    Agree Declaration.strips (declarations d g) (declarations d g) := by
  refine agree_pendingComments.bind fun cs cs' hcs => ?_
  refine (agree_declaration? hg).bind fun x x' hx => ?_
  cases x <;> cases x' <;> try cases hx
  · exact .pure hcs
  · refine hg.declarations.bind fun xs xs' hxs => .pure ?_
    simp only [Declaration.strips_append, Declaration.strips, hcs, Option.some.inj hx, hxs]

/-! ### The file -/

theorem agree_modulePath : Agree id modulePath modulePath := by
  refine (agree_consume _ _).bind fun _ _ _ => ?_
  exact (agree_consume _ _).bind fun t t' ht => .pure (Token.text_eq_of_word ht)

theorem agree_importedNames (hg : g.Agrees) : Agree id (importedNames g) (importedNames g) := by
  refine (agree_take _).andThen fun whole => .cond ?_ ?_
  · refine (agree_consume _ _).bind fun _ _ _ => ?_
    refine (agree_consume _ _).bind fun t t' ht => ?_
    rw [Token.text_eq_of_word ht]
    exact agree_modulePath.andThen fun path => .pure rfl
  · refine (agree_consume _ _).bind fun _ _ _ => ?_
    refine hg.names.andThen fun names => ?_
    refine (agree_consume _ _).bind fun _ _ _ => ?_
    exact agree_modulePath.andThen fun path => .pure rfl

/-- Imports hold no comments, so they are the same altogether. -/
theorem agree_imports (hg : g.Agrees) : Agree id (imports d g) (imports d g) := by
  refine (agree_take _).andThen fun more => .cond ?_ (.pure rfl)
  refine (agree_importedNames hg).andThen fun first => ?_
  refine agree_semicolon.andThen fun _ => ?_
  exact hg.imports.andThen fun rest => .pure rfl

theorem agree_moduleLine : Agree id (moduleLine d) (moduleLine d) := by
  refine (agree_take _).andThen fun found => .cond ?_ (.pure rfl)
  refine (agree_consume _ _).bind fun t t' ht => ?_
  rw [Token.text_eq_of_word ht]
  exact agree_semicolon.andThen fun _ => .pure rfl

/-- A file after the comments at its start. -/
def programFrom (d : Dialect) (g : Grammar) (leading : List Comment) (trailer : Option String) :
    Parser (Option Program) := do
  let moduleName ← moduleLine d
  let beforeImports ←
    if ← is (.keyword .importKw) then
      takeComments
    else
      pure []
  let imports ← imports d g
  let body ← declarations d g
  let _ ← consume .eof (.declarationOr .eof)
  return some
    { leading := leading ++ beforeImports, moduleName, imports, body,
      trailer := trailer.getD "" }

/-- Where there is a token before the end, `program?` takes the comments at the start and goes
on as `programFrom`. -/
theorem run_program? {r : Reader} (hne : r.current.kind ≠ .eof) (trailer : Option String) :
    (program? d g trailer).run r =
      (programFrom d g r.pending trailer).run { r with pending := [] } := by
  have hblank : (r.current.isEof && r.pending.isEmpty && trailer.isNone) = false := by
    simp [Token.isEof, hne]
  show (if (r.current.isEof && r.pending.isEmpty && trailer.isNone) = true then pure none
    else programFrom d g r.pending trailer : Parser (Option Program)).run _ = _
  rw [hblank]
  rfl

/-- Files that differ in comments and trailer are the same after `Program.strip`. -/
theorem agree_programFrom (hg : g.Agrees) (leading leading' : List Comment)
    (trailer trailer' : Option String) :
    Agree (Option.map Program.strip) (programFrom d g leading trailer)
      (programFrom d g leading' trailer') := by
  refine agree_moduleLine.andThen fun moduleName => ?_
  -- comments between the module line and the imports join those at the start
  have hrest : ∀ cs cs' : List Comment, Agree (Option.map Program.strip)
      (do
        let imports ← imports d g
        let body ← declarations d g
        let _ ← consume .eof (.declarationOr .eof)
        return some
          { leading := leading ++ cs, moduleName, imports, body, trailer := trailer.getD "" })
      (do
        let imports ← imports d g
        let body ← declarations d g
        let _ ← consume .eof (.declarationOr .eof)
        return some
          { leading := leading' ++ cs', moduleName, imports, body,
            trailer := trailer'.getD "" }) := by
    intro cs cs'
    refine (agree_imports hg).andThen fun imports => ?_
    refine (agree_declarations hg).bind fun body body' hbody => ?_
    refine (agree_consume _ _).bind fun _ _ _ => .pure ?_
    simp only [Option.map_some, Program.strip, hbody]
  refine (agree_is _).andThen fun found => .cond ?_ (hrest [] [])
  exact agree_takeComments.bind fun cs cs' _ => hrest cs cs'

end Rules

open Rules in
/-- One more layer of rules agrees if the layer below does. -/
theorem Grammar.Agrees.deeper {d : Dialect} {g : Grammar} (hg : g.Agrees) :
    (Rules.deeper d g).Agrees where
  expr := agree_expr hg
  sequenceFrom := agree_sequenceFrom hg
  assignment := agree_assignment hg
  climb := agree_climb hg
  climbFrom bound _ _ h := agree_climbFrom hg bound h
  unary := agree_unary hg
  memberFrom := agree_memberFrom hg
  pathFrom := agree_pathFrom hg
  elements := agree_elements hg
  entries := agree_entries hg
  names := agree_names hg
  declarations := agree_declarations hg
  conditional := agree_conditional hg
  imports := agree_imports hg

/-- So rules of any depth agree, by induction on the depth. -/
theorem Grammar.agrees_ofDepth (d : Dialect) (n : Nat) : (Grammar.ofDepth d n).Agrees := by
  induction n with
  | zero => exact agrees_exhausted
  | succ n ih => exact ih.deeper

/-! ## Texts -/

/-- The words before the reader of a text are its `significant` tokens. -/
theorem Lexer.words_reader (l : Lexer) : l.reader.words = l.significant := by
  rw [← Reader.words_tape, l.tape_reader, l.significant_eq]

/-- A text with a token before its end does not begin with the end. -/
theorem Lexer.kind_reader_ne_eof {l : Lexer} (h : ∃ w ∈ l.significant, w.1 ≠ .eof) :
    l.reader.current.kind ≠ .eof := by
  intro heof
  obtain ⟨w, hw, hne⟩ := h
  have hflush : l.reader.tape.flush = [.token .eof ""] :=
    (proper_reader l).flush.eq_end (by simpa using heof) (Tape.waiting_flush _)
  rw [← l.words_reader, ← Reader.words_tape, ← Tape.words_flush, hflush] at hw
  obtain rfl : w = (.eof, "") := by simpa [Tape.words] using hw
  exact hne rfl

/-- Reading two texts with the same `significant` tokens comes to the same: to the same program
after `Program.strip`, or to the same message. -/
theorem parseText_agree {d : Dialect} {file file' text text' : String}
    (h : (Lexer.ofText d file text).significant = (Lexer.ofText d file' text').significant)
    (hne : ∃ w ∈ (Lexer.ofText d file text).significant, w.1 ≠ .eof) :
    match parseText d file text, parseText d file' text' with
    | .ok p?, .ok q? => p?.map Program.strip = q?.map Program.strip
    | .error e, .error e' => e.Alike e'
    | _, _ => False := by
  -- the readers see the same words, so the grammar does the same on both
  have hrs : (Lexer.ofText d file text).reader.Alike (Lexer.ofText d file' text').reader := by
    rw [Reader.Alike, Lexer.words_reader, Lexer.words_reader, h]
  rw [parseText_eq, parseText_eq, ← hrs.length_ahead,
    run_program? (Lexer.kind_reader_ne_eof hne), run_program? (Lexer.kind_reader_ne_eof (h ▸ hne))]
  have hagree := agree_programFrom (d := d)
    (Grammar.agrees_ofDepth d (Lexer.ofText d file text).reader.ahead.length)
    (Lexer.ofText d file text).reader.pending (Lexer.ofText d file' text').reader.pending
    (cut d text.toList).trailer (cut d text'.toList).trailer
    (r := { (Lexer.ofText d file text).reader with pending := [] })
    (s := { (Lexer.ofText d file' text').reader with pending := [] }) hrs
  split at hagree
  · next hr hs =>
    rw [hr, hs]
    exact hagree.1
  · next hr hs =>
    rw [hr, hs]
    exact hagree
  · exact hagree.elim

/-- **Reading ignores trivia.** Two texts with the same `significant` tokens, at least one of
them before the end, hold the same program after `Program.strip`, or they are refused with the
same message. -/
theorem parseText_of_significant {d : Dialect} {file file' text text' : String}
    (h : (Lexer.ofText d file text).significant = (Lexer.ofText d file' text').significant)
    (hne : ∃ w ∈ (Lexer.ofText d file text).significant, w.1 ≠ .eof) :
    (∃ p q, parseText d file text = .ok (some p) ∧ parseText d file' text' = .ok (some q) ∧
      p.strip = q.strip) ∨
    ∃ e e', parseText d file text = .error (.source e) ∧
      parseText d file' text' = .error (.source e') ∧ e.message = e'.message := by
  have hagree := parseText_agree h hne
  have hcases := parseText_cases d file text
  have hcases' := parseText_cases d file' text'
  split at hagree
  · next p? q? hp hq =>
    cases p? with
    | none =>
      -- a blank text has no token before its end
      rw [hp] at hcases
      refine absurd ?_ (Lexer.kind_reader_ne_eof hne)
      rw [← Reader.kind_tape, Lexer.tape_reader]
      exact hcases.1
    | some p =>
      cases q? with
      | none => cases hagree
      | some q => exact .inl ⟨p, q, hp, hq, Option.some.inj hagree⟩
  · next e e' hp hq =>
    rw [hp] at hcases
    rw [hq] at hcases'
    obtain ⟨e, rfl⟩ := hcases
    obtain ⟨e', rfl⟩ := hcases'
    exact .inr ⟨e, e', hp, hq, hagree⟩
  · exact hagree.elim

/-- Both outcomes occur: for a loop with comments around it, within it and in its trailer, and for
an assignment without a value. -/
theorem parseText_of_significant_comments :
    (∃ p q, parseText .block "a" "while x do g(); end" = .ok (some p) ∧
      parseText .block "b" "// c\nwhile x do /* d */ g();\n// e\nend\n// OUTPUT: f\n" =
        .ok (some q) ∧ p.strip = q.strip) ∧
    ∃ e e', parseText .brace "a" "x = ;" = .error (.source e) ∧
      parseText .brace "b" "x\n= /* c */ ;" = .error (.source e') ∧ e.message = e'.message := by
  have hloop : (Lexer.ofText .block "a" "while x do g(); end").significant =
      (Lexer.ofText .block "b"
        "// c\nwhile x do /* d */ g();\n// e\nend\n// OUTPUT: f\n").significant := by
    rw [Lexer.significant, Lexer.significant, Lexer.tokens_ofText, Lexer.tokens_ofText]
    decide +kernel
  have hassign : (Lexer.ofText .brace "a" "x = ;").significant =
      (Lexer.ofText .brace "b" "x\n= /* c */ ;").significant := by
    rw [Lexer.significant, Lexer.significant, Lexer.tokens_ofText, Lexer.tokens_ofText]
    decide +kernel
  have hname : (.symbol, "x") ∈ (Lexer.ofText .block "a" "while x do g(); end").significant ∧
      (.symbol, "x") ∈ (Lexer.ofText .brace "a" "x = ;").significant := by
    rw [Lexer.significant, Lexer.significant, Lexer.tokens_ofText, Lexer.tokens_ofText]
    decide +kernel
  have hholds : (parseText .block "a" "while x do g(); end").toBool = true := by
    rw [parseText, parse, Lexer.run, Lexer.tokens_ofText]
    decide +kernel
  have hrefused : (parseText .brace "a" "x = ;").toBool = false := by
    rw [parseText, parse, Lexer.run, Lexer.tokens_ofText]
    decide +kernel
  constructor
  · refine (parseText_of_significant hloop ⟨_, hname.1, by decide⟩).resolve_right ?_
    rintro ⟨e, e', he, -⟩
    rw [he] at hholds
    cases hholds
  · refine (parseText_of_significant hassign ⟨_, hname.2, by decide⟩).resolve_left ?_
    rintro ⟨p, q, hp, -⟩
    rw [hp] at hrefused
    cases hrefused

end Diglot

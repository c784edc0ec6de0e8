import Diglot.Proofs.Trivia

/-!
# Every turn takes a token

Rules refer to the grammar below them for each further turn of a loop and for each phrase within a
phrase. They do so only after they have gone past a token, which is what bounds the depth of
reading: with as many levels as the text has tokens before its end, reading never comes to the level
that reads nothing, and more levels change nothing. To say that each reference follows a token, the
grammar is watched: a rule that is entered with some tokens ahead may enter the rules below it only
with fewer, and is exhausted otherwise.

- `Parser.Within`: a parser does what another one does, unless it is exhausted.
- `Grammar.Within`, `Grammar.Within.deeper`: rules on a weaker grammar do no other things.
- `Grammar.below`, `Grammar.watched`: grammars that look after the number of tokens.
- `Grammar.serves_watched`: no rule asks for anything before it has gone past a token.
- `endsAt_parse`: reading comes to the same at every sufficient depth, watched or not.
-/

namespace Diglot

open Rules

/-! ## Parsers within others -/

namespace Parser

variable {α β : Type}

/-- One parser does what another one does, except where it is exhausted: on such a reader it
ends in `.tree .depth`. -/
def Within (x y : Parser α) : Prop :=
  ∀ r, x.run r = .error (.tree .depth) ∨ x.run r = y.run r

variable {x x' y y' : Parser α}

theorem Within.refl (x : Parser α) : x.Within x :=
  fun _ => .inr rfl

/-- `exhausted` is within every parser. -/
theorem within_exhausted (x : Parser α) : exhausted.Within x :=
  fun _ => .inl rfl

/-- If both steps are `Within` others, so is one after the other. -/
theorem Within.bind {z z' : Parser β} {k k' : β → Parser α} (hz : z.Within z')
    (hk : ∀ b, (k b).Within (k' b)) : (z >>= k).Within (z' >>= k') := by
  intro r
  simp only [StateT.run_bind]
  rcases hz r with hexhausted | hsame
  · rw [hexhausted]
    exact .inl rfl
  · rw [← hsame]
    cases z.run r with
    | ok p => exact hk p.1 p.2
    | error e => exact .inr rfl

/-- What follows the same parser may be `Within` something else. -/
theorem Within.andThen {z : Parser β} {k k' : β → Parser α} (hk : ∀ b, (k b).Within (k' b)) :
    (z >>= k).Within (z >>= k') :=
  (Within.refl z).bind hk

/-- What is followed by the same parser may be `Within` something else. -/
theorem Within.before {z z' : Parser β} (hz : z.Within z') (k : β → Parser α) :
    (z >>= k).Within (z' >>= k) :=
  hz.bind fun b => .refl (k b)

theorem Within.ite {c : Prop} [Decidable c] (hx : x.Within x') (hy : y.Within y') :
    (if c then x else y).Within (if c then x' else y') := by
  by_cases h : c
  · simpa [h] using hx
  · simpa [h] using hy

end Parser

open Diglot.Parser

/-- The parsers of one `Grammar` do what those of another one do, except where they are
exhausted. -/
structure Grammar.Within (g g' : Grammar) : Prop where
  expr : g.expr.Within g'.expr
  sequenceFrom : ∀ l, (g.sequenceFrom l).Within (g'.sequenceFrom l)
  assignment : g.assignment.Within g'.assignment
  climb : ∀ b, (g.climb b).Within (g'.climb b)
  climbFrom : ∀ b l, (g.climbFrom b l).Within (g'.climbFrom b l)
  unary : g.unary.Within g'.unary
  memberFrom : ∀ e, (g.memberFrom e).Within (g'.memberFrom e)
  pathFrom : ∀ e, (g.pathFrom e).Within (g'.pathFrom e)
  elements : ∀ k b, (g.elements k b).Within (g'.elements k b)
  entries : g.entries.Within g'.entries
  names : g.names.Within g'.names
  declarations : g.declarations.Within g'.declarations
  conditional : g.conditional.Within g'.conditional
  imports : g.imports.Within g'.imports

/-- The grammar that reads nothing is within every grammar. -/
theorem Grammar.within_exhausted (g : Grammar) : Grammar.exhausted.Within g where
  expr := Parser.within_exhausted _
  sequenceFrom _ := Parser.within_exhausted _
  assignment := Parser.within_exhausted _
  climb _ := Parser.within_exhausted _
  climbFrom _ _ := Parser.within_exhausted _
  unary := Parser.within_exhausted _
  memberFrom _ := Parser.within_exhausted _
  pathFrom _ := Parser.within_exhausted _
  elements _ _ := Parser.within_exhausted _
  entries := Parser.within_exhausted _
  names := Parser.within_exhausted _
  declarations := Parser.within_exhausted _
  conditional := Parser.within_exhausted _
  imports := Parser.within_exhausted _

/-! ## Rules on grammars within others -/

namespace Rules

variable {d : Dialect} {g g' : Grammar}

/-! ### Operands -/

/-- Each rule does on a weaker grammar what it does on a stronger one, or is exhausted. This
one, as `names`, turns again after a comma. -/
theorem within_names (hg : g.Within g') : (names g).Within (names g') := by
  refine .andThen fun named => .ite ?_ (.refl _)
  refine .andThen fun name => .andThen fun more => .ite ?_ (.refl _)
  exact hg.names.before _

/-- `block` uses its grammar for what stands between the marks. -/
theorem within_block (hg : g.Within g') (context : BlockContext) :
    (block d g context).Within (block d g' context) :=
  .andThen fun _ => hg.declarations.before _

theorem within_signature (hg : g.Within g') : (signature g).Within (signature g') :=
  .andThen fun _ => hg.names.before _

theorem within_arguments (hg : g.Within g') : (arguments g).Within (arguments g') :=
  .andThen fun _ => (hg.elements _ _).before _

/-- `arrow` uses it for the body, whichever sort of body there is. -/
theorem within_arrow (hg : g.Within g') (es : List Expr) :
    (arrow d g es).Within (arrow d g' es) := by
  refine .andThen fun token => .andThen fun params => .andThen fun opens => .ite ?_ ?_
  · exact (within_block hg _).before _
  · exact hg.assignment.before _

/-- `parenthesized` uses it for its elements, and then perhaps for the body of an arrow
function. -/
theorem within_parenthesized (hg : g.Within g') :
    (parenthesized d g).Within (parenthesized d g') := by
  refine .andThen fun _ => (hg.elements _ _).bind fun (es, comma) => ?_
  exact .andThen fun _ => .andThen fun isArrow => .ite (within_arrow hg es) (.refl _)

theorem within_object (hg : g.Within g') : (object g).Within (object g') :=
  .andThen fun _ => hg.entries.before _

theorem within_array (hg : g.Within g') : (array g).Within (array g') :=
  .andThen fun _ => (hg.elements _ _).before _

/-- `functionLiteral` uses it for parameters and body, with a name before them or without. -/
theorem within_functionLiteral (hg : g.Within g') :
    (functionLiteral d g).Within (functionLiteral d g') := by
  have hrest (name : Option String) :
      (do
        let params ← signature g
        let body ← block d g .functionBody
        return Expr.function name params body).Within
      (do
        let params ← signature g'
        let body ← block d g' .functionBody
        return .function name params body) :=
    (within_signature hg).bind fun params => (within_block hg _).before _
  refine .andThen fun _ => .andThen fun named => .ite ?_ (hrest none)
  exact .andThen fun name => hrest _

/-- `primary` makes the same choice on both grammars. -/
theorem within_primary (hg : g.Within g') : (primary d g).Within (primary d g') := by
  refine .andThen fun t => ?_
  split
  · exact within_parenthesized hg
  · exact within_object hg
  · exact within_array hg
  case h_12 => exact .ite (within_functionLiteral hg) (.refl _)
  all_goals exact .refl _

theorem within_pathFrom (hg : g.Within g') (e : Expr) : (pathFrom g e).Within (pathFrom g' e) := by
  refine .andThen fun more => .ite ?_ (.refl _)
  exact .andThen fun name => .andThen fun path => hg.pathFrom path

theorem within_construction (hg : g.Within g') : (construction g).Within (construction g') := by
  refine .andThen fun _ => .andThen fun name => (within_pathFrom hg _).bind fun target => ?_
  exact .andThen fun called => .ite ((within_arguments hg).before _) (.refl _)

/-- `memberFrom` uses its grammar for what it goes on with, and again to go on from there. -/
theorem within_memberFrom (hg : g.Within g') (e : Expr) :
    (memberFrom g e).Within (memberFrom g' e) := by
  refine .andThen fun k => ?_
  split
  · refine .andThen fun t => .andThen fun value => (within_arguments hg).bind fun args => ?_
    exact .andThen fun call => hg.memberFrom call
  · refine .andThen fun t => .andThen fun value => hg.expr.bind fun position => ?_
    exact .andThen fun _ => hg.memberFrom _
  · refine .andThen fun t => .andThen fun value => .andThen fun name => ?_
    exact .andThen fun path => hg.memberFrom path
  · exact .refl _

theorem within_member (hg : g.Within g') : (member d g).Within (member d g') := by
  refine .andThen fun isNew => .ite ?_ ?_
  · refine (within_construction hg).bind fun (value, bare) => ?_
    exact .ite (.refl _) (within_memberFrom hg value)
  · exact (within_primary hg).bind fun value => within_memberFrom hg value

/-! ### Operators -/

theorem within_step (hg : g.Within g') : (step d g).Within (step d g') :=
  (within_member hg).before _

theorem within_unary (hg : g.Within g') : (unary d g).Within (unary d g') := by
  refine .andThen fun k => ?_
  split
  · exact .andThen fun token => hg.unary.before _
  · exact within_step hg

/-- `climbFrom` uses it for the right operand, and again to climb on from the whole. -/
theorem within_climbFrom (hg : g.Within g') (bound : Precedence) (left : Expr) :
    (climbFrom g bound left).Within (climbFrom g' bound left) := by
  refine .andThen fun k => ?_
  split
  · exact .refl _
  · refine .ite (.refl _) (.andThen fun token => .andThen fun left => .ite (.refl _) ?_)
    refine (hg.climb _).bind fun e => .andThen fun right => ?_
    exact .andThen fun joined => hg.climbFrom bound joined

theorem within_climb (hg : g.Within g') (bound : Precedence) :
    (climb d g bound).Within (climb d g' bound) :=
  (within_unary hg).bind fun left => within_climbFrom hg bound left

/-- `assignment` uses it for the parts of a ternary and the value of an assignment. -/
theorem within_assignment (hg : g.Within g') : (assignment d g).Within (assignment d g') := by
  refine (within_climb hg _).bind fun left => .andThen fun k => ?_
  split
  · refine .andThen fun token => .andThen fun op => .andThen fun left => ?_
    exact hg.assignment.before _
  · refine .andThen fun token => .andThen fun test => hg.assignment.bind fun yes => ?_
    exact .andThen fun _ => hg.assignment.before _
  · exact .refl _

theorem within_sequenceFrom (hg : g.Within g') (left : Expr) :
    (sequenceFrom g left).Within (sequenceFrom g' left) := by
  refine .andThen fun more => .ite ?_ (.refl _)
  exact hg.assignment.bind fun right => .andThen fun joined => hg.sequenceFrom joined

theorem within_expr (hg : g.Within g') : (expr d g).Within (expr d g') :=
  (within_assignment hg).bind fun left => within_sequenceFrom hg left

/-! ### Lists -/

/-- `elements` uses it for one element, and again for those after the comma. -/
theorem within_elements (hg : g.Within g') (close : TokenKind) (afterComma : Bool) :
    (elements d g close afterComma).Within (elements d g' close afterComma) := by
  refine .andThen fun k => .ite (.refl _) ?_
  refine (within_assignment hg).bind fun e => .andThen fun more => .ite ?_ (.refl _)
  exact (hg.elements _ _).before _

theorem within_entry (hg : g.Within g') : (entry d g).Within (entry d g') := by
  refine .andThen fun key => .andThen fun valued => .ite ?_ (.refl _)
  exact (within_assignment hg).before _

theorem within_entries (hg : g.Within g') : (entries d g).Within (entries d g') := by
  refine .andThen fun k => .ite (.refl _) ?_
  refine (within_entry hg).bind fun e => .andThen fun more => .ite ?_ (.refl _)
  exact hg.entries.before _

/-! ### Statements -/

theorem within_someNames (hg : g.Within g') : (someNames g).Within (someNames g') :=
  (within_names hg).before _

/-- A conditional of the brace dialect uses it for its test, its branches and the conditional in
a branch. -/
theorem within_braceConditional (hg : g.Within g') :
    (braceConditional d g).Within (braceConditional d g') := by
  refine .andThen fun _ => (within_expr hg).bind fun test => .andThen fun _ => ?_
  refine (within_block hg _).bind fun body => .andThen fun hasOther => .ite ?_ (.refl _)
  refine .andThen fun isTest => .ite ?_ ?_
  · exact hg.conditional.before _
  · exact (within_block hg _).before _

/-- So does one of the block dialect. -/
theorem within_blockConditional (hg : g.Within g') :
    (blockConditional d g).Within (blockConditional d g') := by
  refine (within_expr hg).bind fun test => .andThen fun _ => ?_
  refine hg.declarations.bind fun body => .andThen fun isTest => .ite ?_ ?_
  · exact hg.conditional.before _
  · exact .andThen fun hasOther => .ite (hg.declarations.before _) (.refl _)

theorem within_conditional (hg : g.Within g') : (conditional d g).Within (conditional d g') := by
  cases d with
  | brace => exact within_braceConditional hg
  | block => exact within_blockConditional hg

theorem within_whileLoop (hg : g.Within g') : (whileLoop d g).Within (whileLoop d g') := by
  cases d with
  | brace =>
    refine .andThen fun _ => (within_expr hg).bind fun test => .andThen fun _ => ?_
    exact (within_block hg _).before _
  | block => exact (within_expr hg).bind fun test => (within_block hg _).before _

theorem within_loopNames (hg : g.Within g') (bracketed : Bool) :
    (loopNames g bracketed).Within (loopNames g' bracketed) :=
  (within_someNames hg).before _

/-- The header of a loop uses it for the names and the collection. -/
theorem within_loopHeaderFrom (hg : g.Within g') (keyword : Option VarKeyword) :
    (loopHeaderFrom d g keyword).Within (loopHeaderFrom d g' keyword) := by
  refine .andThen fun bracketed => (within_loopNames hg _).bind fun names => ?_
  exact .andThen fun _ => (within_expr hg).before _

theorem within_loopHeader (hg : g.Within g') : (loopHeader d g).Within (loopHeader d g') := by
  rw [loopHeader_eq, loopHeader_eq]
  refine .andThen fun k => .ite (.andThen fun _ => ?_) (within_loopHeaderFrom hg _)
  exact within_loopHeaderFrom hg _

/-- `forLoop` uses it for its header and its body. -/
theorem within_forLoop (hg : g.Within g') : (forLoop d g).Within (forLoop d g') := by
  cases d with
  | brace =>
    refine .andThen fun _ => (within_loopHeader hg).bind fun header => .andThen fun _ => ?_
    exact (within_block hg _).before _
  | block => exact (within_loopHeader hg).bind fun header => (within_block hg _).before _

/-- `statement?` makes the same choice on both grammars. -/
theorem within_statement? (hg : g.Within g') : (statement? d g).Within (statement? d g') := by
  refine .andThen fun k => ?_
  split
  · exact .andThen fun _ => (within_conditional hg).before _
  · exact .andThen fun _ => (within_whileLoop hg).before _
  · exact .andThen fun _ => (within_forLoop hg).before _
  · exact .andThen fun _ => (within_expr hg).before _
  · exact .andThen fun _ => .andThen fun k => .ite ((within_expr hg).before _) (.refl _)
  · exact .ite ((within_block hg _).before _) (.ite ((within_expr hg).before _) (.refl _))

/-! ### Declarations -/

theorem within_functionDeclaration (hg : g.Within g') (exported isAsync : Bool) :
    (functionDeclaration d g exported isAsync).Within
      (functionDeclaration d g' exported isAsync) := by
  refine .andThen fun _ => .andThen fun name => (within_signature hg).bind fun params => ?_
  exact (within_block hg _).before _

theorem within_bracketedVariables (hg : g.Within g') (keyword : VarKeyword) (exported : Bool) :
    (bracketedVariables d g keyword exported).Within
      (bracketedVariables d g' keyword exported) := by
  refine (within_someNames hg).bind fun names => .andThen fun _ => .andThen fun assigned => ?_
  exact .ite (.andThen fun _ => (within_assignment hg).before _) (.refl _)

/-- `variableDeclaration` uses it for the value, if there is one. -/
theorem within_variableDeclaration (hg : g.Within g') (keyword : VarKeyword) (exported : Bool) :
    (variableDeclaration d g keyword exported).Within
      (variableDeclaration d g' keyword exported) := by
  refine .andThen fun _ => .andThen fun bracketed =>
    .ite (within_bracketedVariables hg _ _) (.andThen fun name => .andThen fun assigned => ?_)
  exact .ite (.andThen fun _ => (within_assignment hg).before _) (.refl _)

/-- `declarationFrom` uses it for whatever is declared. -/
theorem within_declarationFrom (hg : g.Within g') (exportWord : Option Token) (isAsync : Bool) :
    (declarationFrom d g exportWord isAsync).Within
      (declarationFrom d g' exportWord isAsync) := by
  refine .andThen fun k => .ite (.refl _) (.ite ?_ ?_)
  · exact (within_functionDeclaration hg _ _).before _
  · split
    · exact (within_variableDeclaration hg _ _).before _
    · exact .refl _
    · exact (within_statement? hg).before _

/-- The words before a declaration are read without the grammar. -/
theorem within_declaration? (hg : g.Within g') :
    (declaration? d g).Within (declaration? d g') := by
  have hrest (exportWord : Option Token) :
      (declarationAfter d g exportWord).Within (declarationAfter d g' exportWord) :=
    .andThen fun isAsync => .andThen fun k => .ite (.refl _) (within_declarationFrom hg _ _)
  rw [declaration?_eq, declaration?_eq]
  refine .andThen fun exported => .ite ?_ (hrest none)
  exact .andThen fun word => hrest (some word)

/-- `declarations` uses it for one declaration, and again for those after it. -/
theorem within_declarations (hg : g.Within g') :
    (declarations d g).Within (declarations d g') := by
  refine .andThen fun comments => (within_declaration? hg).bind fun declaration => ?_
  cases declaration with
  | none => exact .refl _
  | some declaration => exact hg.declarations.before _

/-! ### The file -/

/-- `importedNames` uses it for the names in braces. -/
theorem within_importedNames (hg : g.Within g') :
    (importedNames g).Within (importedNames g') := by
  refine .andThen fun whole => .ite (.refl _) ?_
  exact .andThen fun _ => hg.names.before _

theorem within_imports (hg : g.Within g') : (imports d g).Within (imports d g') := by
  refine .andThen fun more => .ite ?_ (.refl _)
  exact (within_importedNames hg).bind fun first => .andThen fun _ => hg.imports.before _

/-- A file uses it for the imports and the declarations. -/
theorem within_programFrom (hg : g.Within g') (leading : List Comment) (trailer : Option String) :
    (programFrom d g leading trailer).Within (programFrom d g' leading trailer) := by
  refine .andThen fun moduleName => .andThen fun found => .ite ?_ ?_
  all_goals
    exact .andThen fun comments => (within_imports hg).bind fun imports =>
      (within_declarations hg).before _

/-- `program?` looks first whether the file is blank, which needs no grammar. -/
theorem within_program? (hg : g.Within g') (trailer : Option String) :
    (program? d g trailer).Within (program? d g' trailer) :=
  .andThen fun leading => .andThen fun _ => .ite (.refl _) (within_programFrom hg leading trailer)

theorem within_loneExpr (hg : g.Within g') : (loneExpr d g).Within (loneExpr d g') :=
  (within_expr hg).before _

end Rules

/-- So one more layer of rules keeps one grammar within another. -/
theorem Grammar.Within.deeper {g g' : Grammar} (hg : g.Within g') (d : Dialect) :
    (Rules.deeper d g).Within (Rules.deeper d g') where
  expr := within_expr hg
  sequenceFrom := within_sequenceFrom hg
  assignment := within_assignment hg
  climb := within_climb hg
  climbFrom := within_climbFrom hg
  unary := within_unary hg
  memberFrom := within_memberFrom hg
  pathFrom := within_pathFrom hg
  elements := within_elements hg
  entries := within_entries hg
  names := within_names hg
  declarations := within_declarations hg
  conditional := within_conditional hg
  imports := within_imports hg

/-- A deeper grammar does what a shallower one does, unless that one is exhausted:
`Grammar.ofDepth` is monotone in its depth. -/
theorem Grammar.within_ofDepth (d : Dialect) {n m : Nat} (h : n ≤ m) :
    (Grammar.ofDepth d n).Within (Grammar.ofDepth d m) := by
  induction n generalizing m with
  | zero => exact within_exhausted _
  | succ n ih =>
    cases m with
    | zero => exact absurd h (Nat.not_succ_le_zero n)
    | succ m => exact (ih (Nat.le_of_succ_le_succ h)).deeper d

/-! ## Watched grammars -/

/-- A parser that depends on the number of tokens in `Reader.ahead`. -/
def Parser.byAhead {α : Type} (f : Nat → Parser α) : Parser α := do
  f (← get).ahead.length

namespace Grammar

/-- A grammar that depends on the number of tokens ahead where its rules are entered, by
`Parser.byAhead`. -/
def byAhead (f : Nat → Grammar) : Grammar where
  expr := .byAhead fun k => (f k).expr
  sequenceFrom l := .byAhead fun k => (f k).sequenceFrom l
  assignment := .byAhead fun k => (f k).assignment
  climb b := .byAhead fun k => (f k).climb b
  climbFrom b l := .byAhead fun k => (f k).climbFrom b l
  unary := .byAhead fun k => (f k).unary
  memberFrom e := .byAhead fun k => (f k).memberFrom e
  pathFrom e := .byAhead fun k => (f k).pathFrom e
  elements c b := .byAhead fun k => (f k).elements c b
  entries := .byAhead fun k => (f k).entries
  names := .byAhead fun k => (f k).names
  declarations := .byAhead fun k => (f k).declarations
  conditional := .byAhead fun k => (f k).conditional
  imports := .byAhead fun k => (f k).imports

/-- The grammar whose rules may be entered only with fewer than `n` tokens ahead. -/
def below (n : Nat) (g : Grammar) : Grammar :=
  byAhead fun k => if k < n then g else exhausted

/-- The grammar of a depth in which a rule that has been entered may enter others, or itself again,
only after it has gone past a token. -/
def watched (d : Dialect) : Nat → Grammar
  | 0 => exhausted
  | n + 1 => byAhead fun k => deeper d ((watched d n).below k)

variable {d : Dialect} {f : Nat → Grammar} {g : Grammar} {n : Nat}

/-- If each of the grammars is within `g`, so is the choice among them. -/
theorem within_byAhead (h : ∀ k, (f k).Within g) : (byAhead f).Within g where
  expr r := (h _).expr r
  sequenceFrom l r := (h _).sequenceFrom l r
  assignment r := (h _).assignment r
  climb b r := (h _).climb b r
  climbFrom b l r := (h _).climbFrom b l r
  unary r := (h _).unary r
  memberFrom e r := (h _).memberFrom e r
  pathFrom e r := (h _).pathFrom e r
  elements c b r := (h _).elements c b r
  entries r := (h _).entries r
  names r := (h _).names r
  declarations r := (h _).declarations r
  conditional r := (h _).conditional r
  imports r := (h _).imports r

/-- If each of them serves readers with more tokens ahead than it is chosen for, the choice
`Serves` all readers below the bound. -/
theorem serves_byAhead (h : ∀ k < n, ∃ m, k < m ∧ (f k).Serves d m) : (byAhead f).Serves d n := by
  choose m hlt hserves using h
  exact {
    expr := fun r hr hn => (hserves _ hn).expr r hr (hlt _ hn)
    sequenceFrom := fun l r hr hn => (hserves _ hn).sequenceFrom l r hr (hlt _ hn)
    assignment := fun r hr hn => (hserves _ hn).assignment r hr (hlt _ hn)
    climb := fun b r hr hn => (hserves _ hn).climb b r hr (hlt _ hn)
    climbFrom := fun b l r hr hn => (hserves _ hn).climbFrom b l r hr (hlt _ hn)
    unary := fun r hr hn => (hserves _ hn).unary r hr (hlt _ hn)
    memberFrom := fun e r hr hn => (hserves _ hn).memberFrom e r hr (hlt _ hn)
    pathFrom := fun e r hr hn => (hserves _ hn).pathFrom e r hr (hlt _ hn)
    elements := fun c b r hr hn => (hserves _ hn).elements c b r hr (hlt _ hn)
    entries := fun r hr hn => (hserves _ hn).entries r hr (hlt _ hn)
    names := fun r hr hn => (hserves _ hn).names r hr (hlt _ hn)
    declarations := fun r hr hn => (hserves _ hn).declarations r hr (hlt _ hn)
    conditional := fun r hr hn => (hserves _ hn).conditional r hr (hlt _ hn)
    imports := fun r hr hn => (hserves _ hn).imports r hr (hlt _ hn) }

/-- `Grammar.below` only takes away. -/
theorem Within.below {g' : Grammar} (h : g.Within g') (n : Nat) : (g.below n).Within g' := by
  refine within_byAhead fun k => ?_
  by_cases hk : k < n
  · rw [if_pos hk]
    exact h
  · rw [if_neg hk]
    exact within_exhausted g'

/-- What `Grammar.below` keeps is as good as before to the readers that it still serves. -/
theorem Serves.below {m : Nat} (h : g.Serves d m) (hn : n ≤ m) : (g.below n).Serves d n := by
  refine serves_byAhead fun k hk => ⟨m, by omega, ?_⟩
  rwa [if_pos hk]

/-- `watched` takes nothing else from a grammar than what would be exhausted. -/
theorem within_watched (d : Dialect) (n : Nat) : (watched d n).Within (ofDepth d n) := by
  induction n with
  | zero => exact within_exhausted _
  | succ n ih => exact within_byAhead fun k => (ih.below k).deeper d

/-- Where a rule is entered, all it asks for is asked for after a token: the rules below it in
`watched` serve the readers with fewer tokens ahead, and no others are met. -/
theorem serves_watched (d : Dialect) (n : Nat) : (watched d n).Serves d n := by
  induction n with
  | zero => exact serves_ofDepth d 0
  | succ n ih =>
    refine serves_byAhead fun k hk => ⟨k + 1, Nat.lt_succ_self k, ?_⟩
    exact serves_deeper (ih.below (Nat.le_of_lt_succ hk))

end Grammar

/-! ## Texts -/

/-- Where a parser is not exhausted, which `Yields` says, it does what another one does that it
is within. -/
theorem Parser.Within.run_eq {α : Type} {x y : Parser α} {r : Reader} {Q : α → Reader → Prop}
    (h : x.Within y) (hx : x.Yields r Q) : x.run r = y.run r := by
  refine (h r).resolve_left fun hexhausted => ?_
  unfold Parser.Yields at hx
  rw [hexhausted] at hx
  obtain ⟨s, hs⟩ := hx
  cases hs

/-- Reads a text with the rules of a grammar, on the `reader` of the text. -/
def Lexer.runWith {α : Type} (l : Lexer) (g : Grammar) (rule : Grammar → Parser α) :
    Except Error α :=
  ((rule g).run l.reader).map Prod.fst

/-- Reading a text by a rule comes to a result at some depth, where nothing more than that depth is
ever asked for. -/
structure Lexer.EndsAt {α : Type} (l : Lexer) (n : Nat) (rule : Grammar → Parser α)
    (result : Except Error α) : Prop where
  /-- The rules of the depth come to the result. -/
  deep : l.runWith (.ofDepth l.dialect n) rule = result
  /-- So do they if no rule may enter another one, or itself again, before it has gone past a
  token. -/
  watched : l.runWith ((Grammar.watched l.dialect n).below l.reader.ahead.length) rule = result
  /-- The result is not that the depth is used up. -/
  unexhausted : result ≠ .error (.tree .depth)

/-- A rule that does what its grammar allows ends, by `EndsAt`, at every depth that is at least
the number of tokens ahead. -/
theorem Lexer.endsAt_run {α : Type} {l : Lexer} {rule : Grammar → Parser α}
    (hwithin : ∀ {g g' : Grammar}, g.Within g' → (rule g).Within (rule g'))
    (hyields : ∀ {g : Grammar}, g.Serves l.dialect l.reader.ahead.length →
      (rule g).Yields l.reader fun _ _ => True)
    {n : Nat} (hn : l.reader.ahead.length ≤ n) : l.EndsAt n rule (l.run rule) := by
  have henough := hyields (Grammar.serves_ofDepth l.dialect l.reader.ahead.length)
  -- more depth than there are tokens changes nothing
  have hrun : l.run rule = l.runWith (.ofDepth l.dialect n) rule :=
    congrArg (Except.map Prod.fst) ((hwithin (Grammar.within_ofDepth _ hn)).run_eq henough)
  constructor
  · exact hrun.symm
  · rw [hrun]
    refine congrArg (Except.map Prod.fst) (Parser.Within.run_eq (hwithin ?_) (hyields ?_))
    · exact (Grammar.within_watched l.dialect n).below _
    · exact (Grammar.serves_watched l.dialect n).below hn
  · -- with enough depth every complaint is about the source
    intro hexhausted
    unfold Parser.Yields at henough
    split at henough
    · next hok => cases (congrArg (Except.map Prod.fst) hok).symm.trans hexhausted
    · next herror =>
      obtain ⟨s, rfl⟩ := henough
      cases (congrArg (Except.map Prod.fst) herror).symm.trans hexhausted

/-- The tokens ahead at the start of a text are its `significant` tokens but the first. -/
theorem Lexer.length_ahead_reader (l : Lexer) :
    l.reader.ahead.length + 1 = l.significant.length := by
  rw [← l.words_reader, Reader.words, List.length_cons, List.length_map]

/-- **Reading ends.** With as many levels as a text has significant tokens before its end, or with
more, reading a program or an expression comes to the same outcome, and never for want of levels.
Each further turn of a loop and each phrase within another one is read after a token has been gone
past: forbidding all others changes nothing. -/
theorem endsAt_parse (d : Dialect) (file text : String) {n : Nat}
    (hn : (Lexer.ofText d file text).significant.length ≤ n + 1) :
    (Lexer.ofText d file text).EndsAt n
        (fun g => program? d g (Token.trailer? (Lexer.ofText d file text).tokens))
        (parseText d file text) ∧
      (Lexer.ofText d exprFile text).EndsAt n (loneExpr d) (parseExpr d text) := by
  have hsame : (Lexer.ofText d exprFile text).significant =
      (Lexer.ofText d file text).significant := by
    rw [Lexer.significant_eq, Lexer.significant_eq]
    rfl
  constructor
  · rw [← Lexer.length_ahead_reader] at hn
    refine Lexer.endsAt_run (fun hg => within_program? hg _) (fun hg => ?_) (by omega)
    exact (yields_program? hg (proper_reader _) (Nat.lt_succ_self _)).mono fun _ _ _ => trivial
  · rw [← hsame, ← Lexer.length_ahead_reader] at hn
    refine Lexer.endsAt_run within_loneExpr (fun hg => ?_) (by omega)
    simp only [loneExpr, yields_bind, yields_consume, yields_pure]
    exact (serves_expr hg _ (proper_reader _) (Nat.lt_succ_self _)).mono fun _ _ _ _ => trivial

/-- Twelve levels are enough for twelve tokens before the end. -/
theorem endsAt_parse_call :
    (Lexer.ofText .block "f" "if a then b = g(c, d) end").EndsAt 12
      (fun g => program? .block g
        (Token.trailer? (Lexer.ofText .block "f" "if a then b = g(c, d) end").tokens))
      (parseText .block "f" "if a then b = g(c, d) end") := by
  refine (endsAt_parse .block "f" "if a then b = g(c, d) end" ?_).1
  rw [Lexer.significant, Lexer.tokens_ofText]
  decide +kernel

end Diglot

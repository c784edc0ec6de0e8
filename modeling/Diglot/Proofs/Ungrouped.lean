import Diglot.Tree.Equality
import Diglot.Proofs.RoundTrip

/-!
# Trees without parentheses

What is left of a tree when every pair of parentheses around one expression is taken for that
expression. Where the brace dialect would read a statement or the body of an arrow function as a
block, printing puts parentheses around it, so that what is read back differs from the tree; the
question is whether it differs in these parentheses alone. Around one expression it does. Around
expressions joined by commas it does not: between parentheses the commas separate the elements of a
list, and the statement is read back as that list.

- `Expr.ungroup`, `Entry.ungroup`, `Statement.ungroup`, `Declaration.ungroup`, `Program.ungroup`:
  trees without parentheses.
- `Node.Unlisted`: a node whose commas are not enclosed when it is printed.
- `Declaration.ungroups_settles_iff`: settling changes parentheses alone exactly if all nodes are
  so.
- `ungroup_reparsed_iff`: what becomes of a program of the block dialect in the brace dialect.
-/

namespace Diglot

open Lexeme

mutual

/-- An expression without the parentheses in it: every `grouping` is what is inside it. -/
def Expr.ungroup : Expr → Expr
  | .symbol name => .symbol name
  | .literal value => .literal value
  | .grouping inner => inner.ungroup
  | .unary op operand => .unary op operand.ungroup
  | .step op operand => .step op operand.ungroup
  | .binary op left right => .binary op left.ungroup right.ungroup
  | .ternary test yes no => .ternary test.ungroup yes.ungroup no.ungroup
  | .call callee arguments => .call callee.ungroup arguments.ungroup
  | .index target position => .index target.ungroup position.ungroup
  | .object es => .object (Entry.ungroups es)
  | .list es trailingComma => .list (Expr.ungroups es) trailingComma
  | .array es => .array (Expr.ungroups es)
  | .function name params body => .function name params (Declaration.ungroups body)
  | .arrow params body => .arrow params body.ungroup
  | .arrowBlock params body => .arrowBlock params (Declaration.ungroups body)

/-- Several expressions without parentheses. -/
def Expr.ungroups : List Expr → List Expr
  | [] => []
  | e :: es => e.ungroup :: Expr.ungroups es

/-- An object entry without parentheses. -/
def Entry.ungroup : Entry → Entry
  | .shorthand key => .shorthand key
  | .pair key value => .pair key value.ungroup

/-- Several object entries without parentheses. -/
def Entry.ungroups : List Entry → List Entry
  | [] => []
  | e :: es => e.ungroup :: Entry.ungroups es

/-- A statement without parentheses. -/
def Statement.ungroup : Statement → Statement
  | .ifThen test body none => .ifThen test.ungroup (Declaration.ungroups body) none
  | .ifThen test body (some other) =>
    .ifThen test.ungroup (Declaration.ungroups body) (some other.ungroup)
  | .whileLoop test body => .whileLoop test.ungroup (Declaration.ungroups body)
  | .forLoop keyword names collection body bracketed =>
    .forLoop keyword names collection.ungroup (Declaration.ungroups body) bracketed
  | .throw value => .throw value.ungroup
  | .ret none => .ret none
  | .ret (some value) => .ret (some value.ungroup)
  | .expr value => .expr value.ungroup
  | .block body => .block (Declaration.ungroups body)

/-- A declaration without parentheses. -/
def Declaration.ungroup : Declaration → Declaration
  | .function name params body exported isAsync =>
    .function name params (Declaration.ungroups body) exported isAsync
  | .var keyword name none exported => .var keyword name none exported
  | .var keyword name (some value) exported => .var keyword name (some value.ungroup) exported
  | .vars keyword names value exported => .vars keyword names value.ungroup exported
  | .statement st => .statement st.ungroup
  | .comments cs => .comments cs

/-- Several declarations without parentheses. -/
def Declaration.ungroups : List Declaration → List Declaration
  | [] => []
  | x :: xs => x.ungroup :: Declaration.ungroups xs

end

/-- A program without parentheses around single expressions, as `Expr.ungroup` takes them off. -/
def Program.ungroup (p : Program) : Program :=
  { p with body := Declaration.ungroups p.body }

/-! ## Commas that are enclosed -/

/-- No commas of the node are enclosed when it is printed, so none of them is read back as one
that separates the elements of a list. Only a statement that `isAmbiguous` is enclosed with its
commas. -/
def Node.Unlisted (s : Surface) : Node → Prop
  | .statement (.expr (.binary .comma left _)) => left.isAmbiguous s = false
  | _ => True

section Unlisted

variable {d : Dialect} {s : Surface}

@[simp] theorem Node.unlisted_expr (e : Expr) : Node.Unlisted s (.expr e) :=
  trivial

@[simp] theorem Node.unlisted_entry (e : Entry) : Node.Unlisted s (.entry e) :=
  trivial

@[simp] theorem Node.unlisted_declaration (x : Declaration) : Node.Unlisted s (.declaration x) :=
  trivial

/-- Without commas, an expression in parentheses is read back as one `grouping`. -/
theorem Expr.enclosed_settle {e : Expr} (h : ∀ left right, e ≠ .binary .comma left right) :
    (e.settle s).enclosed = .grouping (e.settle s) := by
  cases e with
  | binary op left right =>
    cases op with
    | comma => exact absurd rfl (h left right)
    | _ => rfl
  | _ => rfl

/-- What a statement is printed as changes parentheses alone exactly if it is `Unlisted`. -/
theorem Statement.ungroup_settle_expr_iff {e : Expr} {P : Prop}
    (h : (e.settle s).ungroup = e.ungroup ↔ P) :
    ((Statement.expr e).settle s).ungroup = (Statement.expr e).ungroup ↔
      Node.Unlisted s (.statement (.expr e)) ∧ P := by
  simp only [Statement.settle, Statement.ungroup, Statement.expr.injEq, ← h]
  -- enclosed commas make a list, which no parentheses around one expression are
  by_cases hcomma : ∃ left right, e = .binary .comma left right
  · obtain ⟨left, right, rfl⟩ := hcomma
    have hambiguous : (Expr.binary .comma left right).isAmbiguous s = left.isAmbiguous s := rfl
    simp only [Node.Unlisted, hambiguous]
    cases left.isAmbiguous s <;> simp [Expr.settle, Expr.enclosed, Expr.ungroup]
  · simp only [not_exists] at hcomma
    have hunlisted : Node.Unlisted s (.statement (.expr e)) := by
      unfold Node.Unlisted
      split
      · next heq =>
        cases heq
        exact absurd rfl (hcomma _ _)
      · trivial
    rw [Expr.enclosed_settle hcomma]
    cases e.isAmbiguous s <;> simp [Expr.ungroup, hunlisted]

mutual

/-- `settle` changes nothing but parentheses exactly if no commas are enclosed. The lemmas below
are the other parts of the induction. -/
theorem Expr.ungroup_settle_iff : ∀ e : Expr, AllNodes (Node.Parsed d) e.nodes →
    ((e.settle s).ungroup = e.ungroup ↔ AllNodes (Node.Unlisted s) e.nodes)
  | .symbol _, _ | .literal _, _ => by simp [Expr.settle, Expr.ungroup, Expr.nodes]
  | .grouping inner, h => by
    have hinner := Expr.ungroup_settle_iff inner (allNodes_cons.1 h).2
    simp [Expr.settle, Expr.ungroup, Expr.nodes, hinner]
  | .unary op operand, h | .step op operand, h => by
    have hoperand := Expr.ungroup_settle_iff operand (allNodes_cons.1 h).2
    simp [Expr.settle, Expr.ungroup, Expr.nodes, hoperand]
  | .binary op left right, h => by
    have ⟨hnode, hparts⟩ := allNodes_cons.1 h
    have ⟨hl, hr⟩ := allNodes_append.1 hparts
    have hleft := Expr.ungroup_settle_iff left hl
    by_cases hdot : op = .dot
    · obtain ⟨name, rfl, -⟩ := hnode.formed.2 hdot
      simp [Expr.settle, Expr.ungroup, Expr.nodes, hdot, hleft]
    · rw [if_neg hdot] at hr
      have hright := Expr.ungroup_settle_iff right hr
      simp [Expr.settle, Expr.ungroup, Expr.nodes, hdot, hleft, hright]
  | .ternary test yes no, h => by
    have ⟨hfirst, hn⟩ := allNodes_append.1 (allNodes_cons.1 h).2
    have ⟨ht, hy⟩ := allNodes_append.1 hfirst
    have htest := Expr.ungroup_settle_iff test ht
    have hyes := Expr.ungroup_settle_iff yes hy
    have hno := Expr.ungroup_settle_iff no hn
    simp [Expr.settle, Expr.ungroup, Expr.nodes, htest, hyes, hno]
  | .call callee arguments, h => by
    have ⟨hc, ha⟩ := allNodes_append.1 (allNodes_cons.1 h).2
    have hcallee := Expr.ungroup_settle_iff callee hc
    have harguments := Expr.ungroup_settle_iff arguments ha
    simp [Expr.settle, Expr.ungroup, Expr.nodes, hcallee, harguments]
  | .index target position, h => by
    have ⟨ht, hp⟩ := allNodes_append.1 (allNodes_cons.1 h).2
    have htarget := Expr.ungroup_settle_iff target ht
    have hposition := Expr.ungroup_settle_iff position hp
    simp [Expr.settle, Expr.ungroup, Expr.nodes, htarget, hposition]
  | .object es, h => by
    have hes := Entry.ungroups_settles_iff es (allNodes_cons.1 h).2
    simp [Expr.settle, Expr.ungroup, Expr.nodes, hes]
  | .list es comma, h | .array es, h => by
    have hes := Expr.ungroups_settles_iff es (allNodes_cons.1 h).2
    simp [Expr.settle, Expr.ungroup, Expr.nodes, hes]
  | .function name params body, h | .arrowBlock params body, h => by
    have hbody := Declaration.ungroups_settles_iff body (allNodes_cons.1 h).2
    simp [Expr.settle, Expr.ungroup, Expr.nodes, hbody]
  | .arrow params body, h => by
    have hbody := Expr.ungroup_settle_iff body (allNodes_cons.1 h).2
    cases hblock : body.readsAsBlock s <;>
    simp [Expr.settle, Expr.ungroup, Expr.nodes, hblock, hbody]

theorem Expr.ungroups_settles_iff : ∀ es : List Expr, AllNodes (Node.Parsed d) (Expr.nodesOf es) →
    (Expr.ungroups (Expr.settles s es) = Expr.ungroups es ↔
      AllNodes (Node.Unlisted s) (Expr.nodesOf es))
  | [], _ => by simp [Expr.settles, Expr.nodesOf]
  | e :: es, h => by
    have ⟨he, hes⟩ := allNodes_append.1 h
    simp [Expr.settles, Expr.ungroups, Expr.nodesOf, Expr.ungroup_settle_iff e he,
      Expr.ungroups_settles_iff es hes]

theorem Entry.ungroups_settles_iff : ∀ es : List Entry,
    AllNodes (Node.Parsed d) (Entry.nodesOf es) →
    (Entry.ungroups (Entry.settles s es) = Entry.ungroups es ↔
      AllNodes (Node.Unlisted s) (Entry.nodesOf es))
  | [], _ => by simp [Entry.settles, Entry.nodesOf]
  | .shorthand key :: es, h => by
    have hes := Entry.ungroups_settles_iff es (allNodes_append.1 h).2
    simp [Entry.settles, Entry.settle, Entry.ungroups, Entry.ungroup, Entry.nodesOf, Entry.nodes,
      hes]
  | .pair key value :: es, h => by
    have ⟨he, hes⟩ := allNodes_append.1 h
    have hvalue := Expr.ungroup_settle_iff value (allNodes_cons.1 he).2
    simp [Entry.settles, Entry.settle, Entry.ungroups, Entry.ungroup, Entry.nodesOf, Entry.nodes,
      hvalue, Entry.ungroups_settles_iff es hes]

theorem Statement.ungroup_settle_iff : ∀ st : Statement, AllNodes (Node.Parsed d) st.nodes →
    ((st.settle s).ungroup = st.ungroup ↔ AllNodes (Node.Unlisted s) st.nodes)
  | .ifThen test body none, h => by
    have ⟨ht, hb⟩ := allNodes_append.1 (allNodes_cons.1 h).2
    simp [Statement.settle, Statement.ungroup, Statement.nodes, Node.Unlisted,
      Expr.ungroup_settle_iff test ht, Declaration.ungroups_settles_iff body hb]
  | .ifThen test body (some other), h => by
    have ⟨hfirst, ho⟩ := allNodes_append.1 (allNodes_cons.1 h).2
    have ⟨ht, hb⟩ := allNodes_append.1 hfirst
    simp [Statement.settle, Statement.ungroup, Statement.nodes, Node.Unlisted,
      Expr.ungroup_settle_iff test ht, Declaration.ungroups_settles_iff body hb,
      Statement.ungroup_settle_iff other ho]
  | .whileLoop test body, h => by
    have ⟨ht, hb⟩ := allNodes_append.1 (allNodes_cons.1 h).2
    simp [Statement.settle, Statement.ungroup, Statement.nodes, Node.Unlisted,
      Expr.ungroup_settle_iff test ht, Declaration.ungroups_settles_iff body hb]
  | .forLoop keyword names collection body bracketed, h => by
    have ⟨hc, hb⟩ := allNodes_append.1 (allNodes_cons.1 h).2
    simp [Statement.settle, Statement.ungroup, Statement.nodes, Node.Unlisted,
      Expr.ungroup_settle_iff collection hc, Declaration.ungroups_settles_iff body hb]
  | .throw value, h => by
    have hvalue := Expr.ungroup_settle_iff value (allNodes_cons.1 h).2
    simp [Statement.settle, Statement.ungroup, Statement.nodes, Node.Unlisted, hvalue]
  | .ret none, _ => by simp [Statement.settle, Statement.nodes, Node.Unlisted]
  | .ret (some value), h => by
    have hvalue := Expr.ungroup_settle_iff value (allNodes_cons.1 h).2
    simp [Statement.settle, Statement.ungroup, Statement.nodes, Node.Unlisted, hvalue]
  | .expr value, h => by
    rw [Statement.nodes, allNodes_cons]
    exact Statement.ungroup_settle_expr_iff (Expr.ungroup_settle_iff value (allNodes_cons.1 h).2)
  | .block body, h => by
    have hbody := Declaration.ungroups_settles_iff body (allNodes_cons.1 h).2
    simp [Statement.settle, Statement.ungroup, Statement.nodes, Node.Unlisted, hbody]

theorem Declaration.ungroup_settle_iff : ∀ x : Declaration, AllNodes (Node.Parsed d) x.nodes →
    ((x.settle s).ungroup = x.ungroup ↔ AllNodes (Node.Unlisted s) x.nodes)
  | .function name params body exported isAsync, h => by
    have hbody := Declaration.ungroups_settles_iff body (allNodes_cons.1 h).2
    simp [Declaration.settle, Declaration.ungroup, Declaration.nodes, hbody]
  | .var keyword name none exported, _ | .comments _, _ => by
    simp [Declaration.settle, Declaration.nodes]
  | .var keyword name (some value) exported, h | .vars keyword names value exported, h => by
    have hvalue := Expr.ungroup_settle_iff value (allNodes_cons.1 h).2
    simp [Declaration.settle, Declaration.ungroup, Declaration.nodes, hvalue]
  | .statement st, h => by
    have hst := Statement.ungroup_settle_iff st (allNodes_cons.1 h).2
    simp [Declaration.settle, Declaration.ungroup, Declaration.nodes, hst]

/-- `settles` changes nothing but parentheses exactly if every node is `Unlisted`. -/
theorem Declaration.ungroups_settles_iff : ∀ xs : List Declaration,
    AllNodes (Node.Parsed d) (Declaration.nodesOf xs) →
    (Declaration.ungroups (Declaration.settles s xs) = Declaration.ungroups xs ↔
      AllNodes (Node.Unlisted s) (Declaration.nodesOf xs))
  | [], _ => by simp [Declaration.settles, Declaration.nodesOf]
  | x :: xs, h => by
    have ⟨hx, hxs⟩ := allNodes_append.1 h
    simp [Declaration.settles, Declaration.ungroups, Declaration.nodesOf,
      Declaration.ungroup_settle_iff x hx, Declaration.ungroups_settles_iff xs hxs]

end

end Unlisted

/-! ## From the block dialect to the brace dialect -/

/-- The brace dialect reserves one word that the block dialect leaves free, `function`. -/
theorem keyword?_brace {n : String} (h : Dialect.block.keyword? n = none) (hn : n ≠ "function") :
    Dialect.brace.keyword? n = none := by
  simp only [Dialect.keyword?, Dialect.keywords, List.find?_append, Option.or_eq_none_iff] at h ⊢
  exact ⟨h.1, by simpa [Dialect.ownKeywords, Keyword.spelling] using hn.symm⟩

/-- Of the statements that are read in the block dialect, those that begin with an object are
the ones that printing encloses in the brace dialect: the others are `Unlisted`. -/
theorem allUnlisted_brace_iff {p : Program} (h : p.Parsed .block) :
    AllNodes (Node.Unlisted Dialect.brace.surface) p.nodes ↔
      ∀ l r, Node.statement (.expr (.binary .comma l r)) ∈ p.nodes →
        l.leftmost.isObject = false := by
  constructor
  · intro hunlisted l r hmem
    have hnode : l.isAmbiguous Dialect.brace.surface = false := hunlisted _ hmem
    rw [Expr.isAmbiguous_eq, Bool.or_eq_false_iff] at hnode
    simpa [Dialect.surface] using hnode.1
  · intro hobject n hn
    unfold Node.Unlisted
    split
    · next l r =>
      have hblock : l.isAmbiguous Dialect.block.surface = false := (h.nodes _ hn).formed
      exact Expr.isAmbiguous_eq_false hblock fun _ _ => hobject l r hn
    · trivial

/-- **What becomes of a program of the block dialect in the brace dialect.** It is printed, and read
back as the program with the parentheses that printing has put around statements and bodies of arrow
functions. But for parentheses it is the same program exactly if no statement that begins with an
object is joined by commas; each one that is has become a list. -/
theorem ungroup_reparsed_iff {file text : String} {p : Program}
    (h : parseText .block file text = .ok (some p)) (hmodule : p.moduleName = none)
    (hdivide : ∀ l r, Node.expr (.binary .divAssign l r) ∉ p.nodes)
    (hmarker : ∀ c ∈ p.comments, c.kind = .line → startsTrailer c.text.toList = false)
    (hfunction : "function" ∉ p.names) :
    ∃ printed, (generate .brace p).run .unlimited = .ok () { text := printed, limit := none } ∧
      parseText .brace file printed = .ok (some (p.settle .brace)) ∧
      ((p.settle .brace).ungroup = p.ungroup ↔
        ∀ l r, Node.statement (.expr (.binary .comma l r)) ∈ p.nodes →
          l.leftmost.isObject = false) := by
  have hparsed := (parsed_of_parseText h).1
  have hport : p.Portable .brace := by
    refine ⟨hdivide, hmarker, fun n hn => keyword?_brace (hparsed.free n hn) ?_⟩
    rintro rfl
    exact hfunction hn
  obtain ⟨printed, hprint, hparse⟩ := parseText_printProgram h hport
  refine ⟨printed, generate_of_printProgram hprint, hparse file, ?_⟩
  rw [← allUnlisted_brace_iff hparsed, Program.nodes,
    ← Declaration.ungroups_settles_iff p.body hparsed.nodes]
  simp [Program.settle, Program.ungroup, Program.lower_eq_self fun _ => hmodule]

/-- The statement `{ }, a;` is printed in parentheses, and read back as a list of two elements. -/
theorem ungroup_reparsed_iff_comma :
    ∃ p, parseText .block "a" "\x7b \x7d, a;" = .ok (some p) ∧
      (generate .brace p).run .unlimited = .ok () { text := "(\x7b \x7d, a);\n", limit := none } ∧
      parseText .brace "a" "(\x7b \x7d, a);\n" = .ok (some (p.settle .brace)) ∧
      (p.settle .brace).ungroup.body =
        [.statement (.expr (.list [.object [], .symbol "a"] false))] ∧
      (p.settle .brace).ungroup ≠ p.ungroup := by
  have hparse : parseText .block "a" "\x7b \x7d, a;" = .ok (some
      { leading := [], moduleName := none, imports := [],
        body := [.statement (.expr (.binary .comma (.object []) (.symbol "a")))],
        trailer := "" }) := by
    refine eq_ok_of_toOption ?_
    rw [parseText, parse, Lexer.run, Lexer.tokens_ofText]
    decide +kernel
  obtain ⟨printed, hprint, hread, hiff⟩ := ungroup_reparsed_iff hparse rfl
    (by simp [Program.nodes, Declaration.nodesOf, Declaration.nodes, Statement.nodes, Expr.nodes,
      Entry.nodesOf])
    (by simp [Program.comments, Program.nodes, Declaration.nodesOf, Declaration.nodes,
      Statement.nodes, Expr.nodes, Entry.nodesOf, Node.comments])
    (by decide)
  obtain rfl : "(\x7b \x7d, a);\n" = printed :=
    congrArg Sink.text (EStateM.Result.ok.inj hprint).2
  refine ⟨_, hparse, hprint, hread, rfl, fun heq => ?_⟩
  have hobject := hiff.1 heq (.object []) (.symbol "a") (by
    simp [Program.nodes, Declaration.nodesOf, Declaration.nodes, Statement.nodes])
  cases hobject

end Diglot

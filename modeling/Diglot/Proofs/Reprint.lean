import Diglot.Proofs.Spelling

/-!
# Trees read back

Whatever a phrase means in one dialect can be printed in another and read back there, if its names
and spellings are legible. The induction follows the derivation in the first dialect. A derivation
tells what a tree alone does not: which operators stood next to each other without parentheses, and
so that printing need not add any.

- `Phrase.Reprints`: what reading back means for each phrase.
- `Reads.reprints`: the induction.
-/

namespace Diglot

open Rules

/-! ## Nodes that were read before -/

/-- What a phrase goes on from, its `Phrase.earlier`, stays in the tree. -/
theorem Reads.earlier_subset {d : Dialect} {φ : Phrase} {S S' : Tape} {a : φ.Out}
    (h : Reads d φ S a S') : φ.earlier ⊆ φ.nodes a := by
  induction h with
  | pathEnd _ | memberEnd _ | climbEnd _ | sequenceEnd _ => exact fun _ hn => hn
  | pathMore _ _ _ _ ih | memberCall _ _ _ _ ih | memberIndex _ _ _ _ _ _ ih
  | memberDot _ _ _ _ _ ih | climbMore _ _ _ _ _ _ _ _ _ ih | sequenceMore _ _ _ _ ih =>
    refine fun n hn => ih (List.mem_cons_of_mem _ ?_)
    exact List.mem_append_left _ hn
  | _ => exact List.nil_subset _

section Legible

variable {t : Dialect}

/-- So it is legible if the tree is. -/
theorem Reads.legible_earlier {d : Dialect} {φ : Phrase} {S S' : Tape} {a : φ.Out}
    (h : Reads d φ S a S') (hl : AllNodes (Node.Legible t) (φ.nodes a)) :
    AllNodes (Node.Legible t) φ.earlier :=
  fun n hn => hl n (h.earlier_subset hn)

/-- Comments that are declared in a legible tree are `Genuine`. -/
theorem AllNodes.genuine_of_declare {cs : List Comment}
    (h : AllNodes (Node.Legible t) (Declaration.nodesOf (Comment.declare cs))) :
    ∀ c ∈ cs, c.Genuine t := by
  cases cs with
  | nil => simp
  | cons c cs => exact (h _ (List.mem_cons_self ..)).spelled

/-- A list brings in no name and no spelling of its own. -/
theorem AllNodes.legible_list {es : List Expr} (h : AllNodes (Node.Legible t) (Expr.nodesOf es))
    (comma : Bool) :
    AllNodes (Node.Legible t) (Expr.list es comma).nodes :=
  allNodes_cons.2 ⟨⟨by simp [Node.names], trivial⟩, h⟩

end Legible

/-! ## Phrases read back -/

/-- Declarations are printed as their pieces and read back, also with other comments at the end
than their own `Declaration.ending`. -/
structure BodyAs (t : Dialect) (body : Block) : Prop where
  ends : body = Declaration.beforeEnding body ++ Comment.declare (Declaration.ending body)
  ending : ∀ c ∈ Declaration.ending body, c.Genuine t
  closed : Declaration.beforeEnding body ≠ [] →
    (Declaration.piecesOf t (Declaration.beforeEnding body)).Closed
  reprint : ∀ cs : List Comment, (∀ c ∈ cs, c.Genuine t) →
    DeclarationsAs t (Declaration.beforeEnding body ++ Comment.declare cs)
      (Declaration.piecesOf t (Declaration.beforeEnding body ++ Comment.declare cs))

/-- With their own comments at the end they are the declarations themselves. -/
theorem BodyAs.whole {t : Dialect} {body : Block} (h : BodyAs t body) :
    DeclarationsAs t body (Declaration.piecesOf t body) := by
  have hown := h.reprint _ h.ending
  rwa [← h.ends] at hown

theorem BodyAs.end {t : Dialect} {cs : List Comment} (h : ∀ c ∈ cs, c.Genuine t) :
    BodyAs t (Comment.declare cs) where
  ends := by rw [Declaration.beforeEnding_declare, Declaration.ending_declare, List.nil_append]
  ending := by rwa [Declaration.ending_declare]
  closed hne := absurd (Declaration.beforeEnding_declare cs) hne
  reprint cs hcs := by
    rw [Declaration.beforeEnding_declare, List.nil_append, Declaration.piecesOf_declare]
    exact .end hcs

/-- One more declaration before others, with the comments that wait before it. -/
theorem BodyAs.more {t : Dialect} {cs : List Comment} (hcs : ∀ c ∈ cs, c.Genuine t)
    {x : Declaration} (hne : ∀ cs, x ≠ .comments cs) (hx : DeclarationAs t x (x.pieces t))
    {xs : Block} (hxs : BodyAs t xs) : BodyAs t (Comment.declare cs ++ x :: xs) where
  ends := by
    rw [Declaration.beforeEnding_more hne, Declaration.ending_more hne, List.append_assoc,
      List.cons_append, ← hxs.ends]
  ending := by
    rw [Declaration.ending_more hne]
    exact hxs.ending
  closed _ := by
    rw [Declaration.beforeEnding_more hne, Declaration.piecesOf_append, Declaration.piecesOf]
    refine .after ?_ _
    by_cases hnil : Declaration.beforeEnding xs = []
    · rw [hnil, Declaration.piecesOf, List.append_nil]
      exact Declaration.closed_pieces hne
    · exact .after (hxs.closed hnil) _
  reprint cs' hcs' := by
    rw [Declaration.beforeEnding_more hne, List.append_assoc, List.cons_append,
      Declaration.piecesOf_append, Declaration.piecesOf_declare]
    exact .more hcs hx (hxs.reprint cs' hcs')

/-- What is read as a phrase is printed as its pieces and read back: `PrimaryAs`, `ClimbsAs` and
so on, one for each `Phrase`. Where a phrase goes on from a tree, so does the reading back. -/
def Phrase.Reprints (t : Dialect) : (φ : Phrase) → Tape → φ.Out → Prop
  | .block, _, body | .declarations, _, body => BodyAs t body
  | .arguments, _, e => ∃ es comma, e = .list es comma ∧ (es = [] → comma = false) ∧
    List.Forall₂ (AssignsAs t) es (Expr.piecesOf t es)
  | .primary, _, e => PrimaryAs t e (e.pieces t)
  | .pathFrom l, _, e => ∀ n P, l.pieces t = .name n :: P → PathAs t n l P →
    ∃ Q, e.pieces t = .name n :: Q ∧ PathAs t n e Q
  | .memberFrom l, _, e => ExtendsAs t l (l.pieces t) → ExtendsAs t e (e.pieces t)
  | .member, _, e => MemberAs t e (e.pieces t)
  | .step, _, e => StepAs t e (e.pieces t)
  | .unary, _, e => UnaryAs t e (e.pieces t)
  | .climbFrom b l, S, e => ∀ c, (∀ op, infixOp? S.kind = some op → op.precedence < c) →
    ClimbsAs t b c l (l.pieces t) → ClimbAs t b e (e.pieces t)
  | .climb b, _, e => b ≤ .unary → ClimbAs t b e (e.pieces t)
  | .assignment, _, e => AssignsAs t e (e.pieces t)
  | .sequenceFrom l, _, e => SequencesAs t l (l.pieces t) → SequencesAs t e (e.pieces t)
  | .expr, _, e => ExprAs t e (e.pieces t)
  | .elements _ afterComma, _, (es, comma) =>
    List.Forall₂ (AssignsAs t) es (Expr.piecesOf t es) ∧
      (afterComma = false → es = [] → comma = false)
  | .entry, _, e => EntersAs t e (e.pieces t)
  | .entries, _, es => List.Forall₂ (EntersAs t) es (Entry.piecesOf t es)
  | .conditional, _, st => ConditionalAs t st (st.inner t)
  | .loopHeader, _, (_, ns, _, e) => ns ≠ [] ∧ ExprAs t e (e.pieces t)
  | .statement, _, st => StatementAs t st (st.pieces t)
  | .declaration, _, x => DeclarationAs t x (x.pieces t)
  | _, _, _ => True

/-- What is read in one dialect is printed in another and read back there, if all its nodes are
`Node.Legible`. Each case is one lemma about how its node is printed. -/
theorem Reads.reprints {d t : Dialect} {φ : Phrase} {S S' : Tape} {a : φ.Out}
    (h : Reads d φ S a S') : AllNodes (Node.Legible t) (φ.nodes a) → φ.Reprints t S a := by
  induction h with
  | namesNone _ | namesLast _ _ | namesMore _ _ _ _ | signature _ _ _ _ | endSemicolon _
  | endClosed _ _ | importWhole _ _ _ _ _ | importNames _ _ _ _ _ _ | importsNone _
  | importsMore _ _ _ _ _ _ _ => exact fun _ => trivial
  | block _ _ _ ih => exact ih
  | arguments _ _ _ ih =>
    intro hl
    obtain ⟨hes, hcomma⟩ := ih (allNodes_cons.1 hl).2
    exact ⟨_, _, rfl, hcomma rfl, hes⟩
  -- values
  | @symbol _ _ n _ =>
    intro hl
    exact .symbol ((allNodes_cons.1 hl).1.names n (by simp [Node.names]))
  | boolean h =>
    intro hl
    exact .literal (allNodes_cons.1 hl).1.spelled fun _ => .boolean (.token _ _ _)
  | fixnum h hr =>
    intro hl
    exact .literal (allNodes_cons.1 hl).1.spelled fun _ => .fixnum (.token _ _ _) hr
  | flonum h =>
    intro hl
    exact .literal (allNodes_cons.1 hl).1.spelled fun _ => .flonum (.token _ _ _)
  | string h =>
    intro hl
    exact .literal (allNodes_cons.1 hl).1.spelled fun _ => .string (.token _ _ _)
  | regexp h =>
    intro hl
    exact .literal (allNodes_cons.1 hl).1.spelled fun _ => .regexp (.token _ _ _)
  | object _ _ _ ih =>
    intro hl
    exact .object (ih (allNodes_cons.1 hl).2)
  | array _ _ _ ih =>
    intro hl
    exact .array (ih (allNodes_cons.1 hl).2).1
  | grouping _ _ ih =>
    intro hl
    have hinner := (allNodes_cons.1 hl).2
    obtain ⟨es, comma, heq, -, hes⟩ :=
      ih (.legible_list (by simpa [Expr.nodesOf] using hinner) false)
    cases heq
    cases hes with
    | cons he _ => exact .grouping he
  | list _ _ hne htwo ih =>
    intro hl
    obtain ⟨es, comma, heq, -, hes⟩ := ih hl
    cases heq
    exact .list hes hne htwo
  -- functions
  | @functionNamed _ _ _ _ _ n ps body _ _ _ _ _ ihb =>
    intro hl
    obtain ⟨hnode, hbody⟩ := allNodes_cons.1 hl
    have hname : ∀ m ∈ some n, IsName t m := by
      intro m hm
      exact hnode.names m (by simp_all [Node.names])
    have hps : ∀ p ∈ ps, IsName t p := fun p hp => hnode.names p (by simp [Node.names, hp])
    exact .function hname hps (ihb hbody).whole.blockAs
  | functionBare _ _ _ _ _ ihb =>
    intro hl
    obtain ⟨hnode, hbody⟩ := allNodes_cons.1 hl
    exact .function (by simp) hnode.names (ihb hbody).whole.blockAs
  | arrow _ _ _ _ _ ihb =>
    intro hl
    obtain ⟨hnode, hbody⟩ := allNodes_cons.1 hl
    exact PrimaryAs.arrow hnode.names (ihb hbody)
  | arrowBlock _ _ _ _ ihb =>
    intro hl
    obtain ⟨hnode, hbody⟩ := allNodes_cons.1 hl
    exact .arrowBlock hnode.names (ihb hbody).whole.blockAs
  -- what goes on from a value
  | pathEnd _ => exact fun _ n P heq hP => ⟨P, heq, hP⟩
  | pathMore _ _ _ hx ih =>
    intro hl n P heq hP
    obtain ⟨name, hname, hword⟩ := (allNodes_cons.1 (hx.legible_earlier hl)).1.spelled rfl
    cases hname
    exact ih hl n _ (by simp [Expr.pieces, Expr.memberPieces, heq]) (hP.dot hword)
  | memberEnd _ => exact fun _ hP => hP
  | memberCall ho _ hx iha ih =>
    intro hl hP
    have hparts := allNodes_append.1 (allNodes_cons.1 (hx.legible_earlier hl)).2
    obtain ⟨es, comma, rfl, hcomma, hes⟩ := iha hparts.2
    exact ih hl (hP.call ho hes hcomma)
  | memberIndex ho _ _ _ hx ihp ih =>
    intro hl hP
    have hparts := allNodes_append.1 (allNodes_cons.1 (hx.legible_earlier hl)).2
    exact ih hl (hP.index ho (ihp hparts.2))
  | memberDot ho _ _ _ hx ih =>
    intro hl hP
    obtain ⟨name, hname, hword⟩ := (allNodes_cons.1 (hx.legible_earlier hl)).1.spelled rfl
    cases hname
    exact ih hl (hP.dot ho hword)
  | @newBare _ _ _ _ n _ _ _ ht _ ih =>
    intro hl
    have htarget := (allNodes_cons.1 hl).2
    have hname := (allNodes_cons.1 (ht.legible_earlier htarget)).1
    obtain ⟨P, heq, hP⟩ := ih htarget n [] rfl (.symbol (hname.names n (by simp [Node.names])))
    rw [Phrase.Reprints, Expr.pieces, heq]
    exact .newBare hP ht.isSymbolPath
  | @newCall _ _ _ _ _ _ n _ _ _ _ _ ht _ hx iht iha ih =>
    intro hl
    have hparts := allNodes_append.1 (allNodes_cons.1 (hx.legible_earlier hl)).2
    have hname := (allNodes_cons.1 (ht.legible_earlier hparts.1)).1
    obtain ⟨P, heq, hP⟩ :=
      iht hparts.1 n [] rfl (.symbol (hname.names n (by simp [Node.names])))
    obtain ⟨es, comma, rfl, hcomma, hes⟩ := iha hparts.2
    refine (ih hl ?_).memberAs
    rw [Expr.pieces, heq]
    exact .newCall hP ht.isSymbolPath hes hcomma
  | member _ he hx ihe ih =>
    intro hl
    exact (ih hl ((ihe (hx.legible_earlier hl)).extendsAs he.binds)).memberAs
  -- operators
  | stepNone _ _ ih => exact fun hl => (ih hl).stepAs
  | stepSome he _ hk ho ih =>
    intro hl
    rw [Phrase.Reprints, Expr.pieces, kind_of_stepOp? hk]
    exact .step (ih (allNodes_cons.1 hl).2) ho (he.binds ho) hk
  | unaryNone _ _ ih => exact fun hl => (ih hl).unaryAs
  | unarySome _ hk he ho ih =>
    intro hl
    rw [Phrase.Reprints, Expr.pieces, kind_of_unaryOp? hk]
    exact (ih (allNodes_cons.1 hl).2).unary ho (he.binds ho).1 hk
  | climbEnd _ => exact fun _ c _ hP => hP.climbAs
  | climbMore h hk hb hl' hu hr ho hx ihr ih =>
    intro hl c hc hP
    have hparts := allNodes_append.1 (allNodes_cons.1 (hx.legible_earlier hl)).2
    rw [if_neg (ne_dot_of_infixOp? hk)] at hparts
    have hbound : rightBound _ ≤ Precedence.unary :=
      Nat.le_trans (precedence_of_infixOp? hk).2 (by decide)
    rw [h.kind_eq] at hc
    -- the operator that comes next is the one at which the right operand stopped
    refine ih hl _ hr.stops ?_
    rw [Expr.pieces_binary (ne_new_of_infixOp? hk) (ne_dot_of_infixOp? hk), kind_of_infixOp? hk]
    exact hP.more hk hb (hc _ hk) hl' hu (ihr hparts.2 hbound) ho (hr.binds hbound ho)
  | climb he hx ihe ih =>
    intro hl hb
    have hP := ihe (hx.legible_earlier hl)
    -- a chain begins with one operand, and no operator binds more strongly than it asks
    refine ih hl .unary (fun op hop => ?_) (hP.climbsAs hb he.binds)
    exact Nat.lt_succ_of_le (rightBound_of_infixOp? hop).2.2.2.2.1
  | assignmentNone he ha hq ih =>
    intro hl
    exact .ofClimb (ih hl (by decide)) (Reads.assignmentNone he ha hq).binds
  | assignmentSome hl' _ _ hop ho _ ihl ihr =>
    intro hl
    have hdot := ne_dot_of_assignment hop
    have hparts := (allNodes_cons.1 hl).2
    rw [if_neg hdot, allNodes_append] at hparts
    rw [Phrase.Reprints, Expr.pieces_binary (ne_new_of_assignment hop) hdot,
      kind_of_assignment hop]
    exact .assign (ihl hparts.1 (by decide)) ho (hl'.binds (by decide) ho) (ihr hparts.2) hop
  | ternary ht _ ho _ _ _ iht ihy ihn =>
    intro hl
    have hparts := (allNodes_cons.1 hl).2
    rw [allNodes_append, allNodes_append] at hparts
    exact .ternary (iht hparts.1.1 (by decide)) ho (ht.binds (by decide) ho) (ihy hparts.1.2)
      (ihn hparts.2)
  | sequenceEnd _ => exact fun _ hP => hP
  | sequenceMore _ _ hx ihr ih =>
    intro hl hP
    have hparts := allNodes_append.1 (allNodes_cons.1 (hx.legible_earlier hl)).2
    refine ih hl ?_
    rw [Expr.pieces_binary (by decide) (by decide)]
    exact hP.comma (ihr hparts.2)
  | expr _ hx ihe ih =>
    intro hl
    exact (ih hl (ihe (hx.legible_earlier hl)).sequencesAs).exprAs
  -- elements and entries
  | elementsNone _ => exact fun _ => ⟨.nil, fun hb _ => hb⟩
  | elementsLast _ _ _ ih =>
    intro hl
    exact ⟨.cons (ih (allNodes_append.1 hl).1) .nil, by simp⟩
  | elementsMore _ _ _ _ ih ihes =>
    intro hl
    exact ⟨.cons (ih (allNodes_append.1 hl).1) (ihes (allNodes_append.1 hl).2).1, by simp⟩
  | entryShort _ hk _ =>
    intro hl
    have hnode := (allNodes_cons.1 hl).1
    rw [Phrase.Reprints, Entry.pieces, Key.piece_of_ofToken? hk]
    exact .shorthand hk (cuts_key hk hnode.names hnode.spelled)
  | entryPair _ hk _ _ ih =>
    intro hl
    obtain ⟨hnode, hvalue⟩ := allNodes_cons.1 hl
    rw [Phrase.Reprints, Entry.pieces, Key.piece_of_ofToken? hk]
    exact .pair hk (cuts_key hk hnode.names hnode.spelled) (ih hvalue)
  | entriesNone _ => exact fun _ => .nil
  | entriesLast _ _ _ ih => exact fun hl => .cons (ih (allNodes_append.1 hl).1) .nil
  | entriesMore _ _ _ _ ih ihes =>
    intro hl
    exact .cons (ih (allNodes_append.1 hl).1) (ihes (allNodes_append.1 hl).2)
  -- conditionals
  | braceIf _ _ _ _ _ _ iht ihb | blockIf _ _ _ _ _ iht ihb =>
    intro hl
    have hparts := allNodes_append.1 (allNodes_cons.1 hl).2
    exact .ifThen (iht hparts.1) (ihb hparts.2).whole
  | braceIfElse _ _ _ _ _ _ _ _ iht ihb iho | blockIfElse _ _ _ _ _ _ _ iht ihb iho =>
    intro hl
    obtain ⟨hfirst, hother⟩ := allNodes_append.1 (allNodes_cons.1 hl).2
    have hparts := allNodes_append.1 hfirst
    exact .ifElse (iht hparts.1) (ihb hparts.2).whole (iho (allNodes_cons.1 hother).2).whole
  | braceIfElseIf _ _ _ _ _ _ _ ho iht ihb iho | blockIfElsif _ _ _ _ _ ho iht ihb iho =>
    intro hl
    obtain ⟨hfirst, hother⟩ := allNodes_append.1 (allNodes_cons.1 hl).2
    have hparts := allNodes_append.1 hfirst
    have hP := iho hother
    obtain ⟨test, body, other, rfl⟩ := ho.isConditional
    -- the branches share one end, so the inner conditional is taken without its own
    exact .ifElseIf (iht hparts.1) (ihb hparts.2).whole hP
  | ifStatement _ hs ih =>
    intro hl
    have hP := (ih hl).statementAs
    obtain ⟨test, body, other, rfl⟩ := hs.isConditional
    exact hP
  -- loops
  | loopHeader _ _ _ hne _ _ _ _ ih => exact fun hl => ⟨hne, ih hl⟩
  | braceWhile _ _ _ _ _ _ iht ihb | blockWhile _ _ _ _ iht ihb =>
    intro hl
    have hparts := allNodes_append.1 (allNodes_cons.1 hl).2
    exact .whileLoop (iht hparts.1) (ihb hparts.2).whole.blockAs
  | braceFor _ _ _ _ _ _ ihh ihb | blockFor _ _ _ _ ihh ihb =>
    intro hl
    obtain ⟨hnode, hchildren⟩ := allNodes_cons.1 hl
    have hparts := allNodes_append.1 hchildren
    obtain ⟨hne, hQ⟩ := ihh hparts.1
    exact .forLoop hnode.names hne hQ (ihb hparts.2).whole.blockAs _
  -- simple statements
  | throw _ _ _ ih => exact fun hl => .throw (ih (allNodes_cons.1 hl).2)
  | retNone _ _ _ _ => exact fun _ => .retNone
  | retSome _ _ _ _ ih => exact fun hl => .retSome (ih (allNodes_cons.1 hl).2)
  | blockStatement _ ih => exact fun hl => .block (ih (allNodes_cons.1 hl).2).whole.blockAs
  | exprStatement _ _ _ _ ih => exact fun hl => .expr (ih (allNodes_cons.1 hl).2)
  -- declarations
  | @function _ _ _ _ _ _ _ _ _ n ps _ _ _ _ _ _ _ _ ihb =>
    intro hl
    obtain ⟨hnode, hbody⟩ := allNodes_cons.1 hl
    obtain ⟨hn, hps⟩ := List.forall_mem_cons.1 hnode.names
    exact .function hn hps (ihb hbody).whole.blockAs _ _
  | @var _ _ _ _ _ _ _ kw n _ _ _ _ _ _ _ =>
    intro hl
    have hnode := (allNodes_cons.1 hl).1
    exact .var kw (hnode.names n (by simp [Node.names])) _
  | @varValue _ _ _ _ _ _ _ _ _ kw n _ _ _ _ _ _ _ _ ih =>
    intro hl
    obtain ⟨hnode, hvalue⟩ := allNodes_cons.1 hl
    exact .varValue kw (hnode.names n (by simp [Node.names])) (ih hvalue) _
  | @vars _ _ _ _ _ _ _ _ _ _ _ kw _ _ _ _ _ _ _ hne _ _ _ _ _ ih =>
    intro hl
    obtain ⟨hnode, hvalue⟩ := allNodes_cons.1 hl
    exact .vars kw hnode.names hne (ih hvalue) _
  | statement _ _ _ _ _ ih => exact fun hl => (ih (allNodes_cons.1 hl).2).declarationAs
  | declarationsEnd _ => exact fun hl => .end hl.genuine_of_declare
  | declarationsMore hx _ ihx ihxs =>
    intro hl
    rw [Phrase.nodes, Declaration.nodesOf_append, Declaration.nodesOf] at hl
    obtain ⟨hcs, hdecls⟩ := allNodes_append.1 hl
    have hparts := allNodes_append.1 hdecls
    exact .more hcs.genuine_of_declare hx.ne_comments (ihx hparts.1) (ihxs hparts.2)

end Diglot

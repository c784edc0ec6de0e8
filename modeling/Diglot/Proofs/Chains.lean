import Diglot.Proofs.HandBuilt

/-!
# Chains of operators

Names joined by operators, without parentheses. Reading such a chain makes a tree of it, with the
names and operators in their order, and which operator stands at the top of which is settled by how
strongly they bind and to which side they group. That describes the tree: no other one over the same
chain is grouped so. A chain has a grouped tree, since an operator and a name can be put at the end
of one, and every grouped tree is printed as its chain and read back, so there is no second one.

- `Expr.InOrder`: the names and operators of a tree, from left to right.
- `Expr.Grouped`: the operators of a tree stand where their strength puts them.
- `Expr.InOrder.exists_snoc`: an operator and a name at the end of a grouped tree.
- `Expr.InOrder.parseExpr_chain`: a grouped tree is what its chain is read as.
- `existsUnique_parseExpr_chain`: what a chain is read as is its only grouped tree.
-/

namespace Diglot

open Rules Lexeme

/-! ## Chains and their trees -/

namespace BinaryOp

/-- The operators that join the operands of a chain, those that `infixOp?` gives. -/
def infixes : List BinaryOp :=
  [ or, and, eq, strictEq, notEq, strictNotEq, lt, gt, ltEq, gtEq, isIn, add, sub, mul, div, mod
  , exp ]

/-- An operator may stand at the top of the left operand of another one. -/
def MayLead (outer inner : BinaryOp) : Prop :=
  outer.precedence < inner.precedence ∨
    outer.precedence = inner.precedence ∧ outer.isRightAssociative = false

/-- An operator may stand at the top of the right operand of another one. -/
def MayFollow (outer inner : BinaryOp) : Prop :=
  outer.precedence < inner.precedence ∨
    outer.precedence = inner.precedence ∧ outer.isRightAssociative = true

instance (outer inner : BinaryOp) : Decidable (outer.MayLead inner) :=
  inferInstanceAs (Decidable (_ ∨ _))

instance (outer inner : BinaryOp) : Decidable (outer.MayFollow inner) :=
  inferInstanceAs (Decidable (_ ∨ _))

end BinaryOp

/-- A name and further ones, each after an operator, with single blanks between them: what
`Expr.doc` writes for a grouped tree. -/
def chainText (first : String) (rest : List (BinaryOp × String)) : String :=
  first ++ String.join (rest.map fun x => " " ++ x.1.spelling ++ " " ++ x.2)

namespace Expr

/-- The operator at the top of an expression, if there is one between operands. -/
def topOp? : Expr → Option BinaryOp
  | .binary op _ _ => some op
  | _ => none

/-- A tree of names joined by operators, with its first name and, from left to right, each operator
and the name after it. -/
inductive InOrder : Expr → String → List (BinaryOp × String) → Prop
  | symbol (name : String) : InOrder (.symbol name) name []
  | binary {left right : Expr} {first second : String} {ls rs : List (BinaryOp × String)}
      (op : BinaryOp) (hl : InOrder left first ls) (hr : InOrder right second rs) :
      InOrder (.binary op left right) first (ls ++ (op, second) :: rs)

/-- At every operator, one that stands at the top of an operand binds more strongly, or as
strongly on the side that the two group to: it `MayLead` or it `MayFollow`. -/
def Grouped : Expr → Prop
  | .binary op left right =>
    left.Grouped ∧ right.Grouped ∧ (∀ inner, left.topOp? = some inner → op.MayLead inner) ∧
      ∀ inner, right.topOp? = some inner → op.MayFollow inner
  | _ => True

end Expr

section Chain

variable {d : Dialect} {e : Expr} {first name : String} {rest : List (BinaryOp × String)}
  {op : BinaryOp}

theorem BinaryOp.infixOp?_kind (h : op ∈ BinaryOp.infixes) : infixOp? op.kind = some op := by
  revert op
  decide

/-- Operators of one `precedence` group to the same side. -/
theorem BinaryOp.isRightAssociative_congr {op' : BinaryOp} (h : op.precedence = op'.precedence) :
    op.isRightAssociative = op'.isRightAssociative := by
  have hside (op : BinaryOp) : op.isRightAssociative =
      (op.precedence == Precedence.assignment || op.precedence == Precedence.exponent) := by
    cases op <;> rfl
  rw [hside, hside, h]

/-! ## Every chain has a grouped tree -/

/-- An operator and a name go at the end of a tree that is `Grouped`: on top of it if the tree
may be the left operand, and otherwise at the end of its right operand. -/
theorem Expr.InOrder.exists_snoc (h : e.InOrder first rest) (hgrouped : e.Grouped)
    (op : BinaryOp) (name : String) :
    ∃ e' : Expr, e'.InOrder first (rest ++ [(op, name)]) ∧ e'.Grouped ∧
      (e'.topOp? = some op ∨ e'.topOp? = e.topOp?) := by
  induction h with
  | symbol first =>
    exact ⟨.binary op (.symbol first) (.symbol name), .binary op (.symbol first) (.symbol name),
      ⟨trivial, trivial, nofun, nofun⟩, .inl rfl⟩
  | @binary left right first second ls rs outer hl hr ihl ihr =>
    obtain ⟨hleft, hright, hlead, hfollow⟩ := id hgrouped
    by_cases hlast : op.MayLead outer
    · refine ⟨.binary op (.binary outer left right) (.symbol name),
        .binary op (.binary outer hl hr) (.symbol name), ⟨hgrouped, trivial, ?_, nofun⟩, .inl rfl⟩
      rintro inner ⟨⟩
      exact hlast
    · obtain ⟨right', hin, hgrouped', htop⟩ := ihr hright
      -- what may not lead may follow, since equally strong operators group to one side
      have hlarger : outer.MayFollow op := by
        unfold BinaryOp.MayLead at hlast
        unfold BinaryOp.MayFollow
        by_cases heq : outer.precedence = op.precedence
        · have hside := BinaryOp.isRightAssociative_congr heq
          right
          refine ⟨heq, hside.trans ?_⟩
          by_contra hneg
          exact hlast (.inr ⟨heq.symm, Bool.eq_false_iff.2 hneg⟩)
        · exact .inl (Nat.lt_of_le_of_ne (Nat.not_lt.1 fun hlt => hlast (.inl hlt)) heq)
      refine ⟨.binary outer left right', ?_, ⟨hleft, hgrouped', hlead, fun inner hinner => ?_⟩,
        .inr rfl⟩
      · simpa using InOrder.binary outer hl hin
      · rcases htop with htop | htop
        · rw [htop] at hinner
          exact Option.some.inj hinner ▸ hlarger
        · exact hfollow inner (htop ▸ hinner)

/-- Every chain has a tree that is `Grouped`, one operator after the other. -/
theorem exists_grouped (first : String) (rest : List (BinaryOp × String)) :
    ∃ e : Expr, e.InOrder first rest ∧ e.Grouped := by
  induction rest using List.reverseRecOn with
  | nil => exact ⟨.symbol first, .symbol first, trivial⟩
  | append_singleton rest x ih =>
    obtain ⟨e, hin, hgrouped⟩ := ih
    obtain ⟨e', hin', hgrouped', -⟩ := hin.exists_snoc hgrouped x.1 x.2
    exact ⟨e', hin', hgrouped'⟩

/-! ## A grouped tree is printed as its chain -/

/-- The text of a chain, taken apart at one of its operators. -/
theorem chainText_append (first second : String) (ls rs : List (BinaryOp × String)) :
    chainText first (ls ++ (op, second) :: rs) =
      chainText first ls ++ (" " ++ op.spelling ++ " ") ++ chainText second rs := by
  simp [chainText, String.append_assoc]

/-- What `MayLead` binds as strongly as printing asks of a left operand; `MayFollow.required_le`
is the same for the right one. -/
theorem BinaryOp.MayLead.required_le {inner : BinaryOp} (h : op.MayLead inner)
    (hop : op ∈ BinaryOp.infixes) : op.required.1 ≤ inner.precedence := by
  by_cases hexp : op = .exp
  · subst hexp
    rcases h with hlt | ⟨-, hside⟩
    · cases inner <;> first | decide | exact absurd hlt (by decide)
    · cases hside
  · rw [(rightBound_of_infixOp? (BinaryOp.infixOp?_kind hop)).2.2.2.1 hexp]
    rcases h with hlt | ⟨heq, -⟩
    · exact Nat.le_of_lt hlt
    · exact Nat.le_of_eq heq

theorem BinaryOp.MayFollow.required_le {inner : BinaryOp} (h : op.MayFollow inner)
    (hop : op ∈ BinaryOp.infixes) : op.required.2 ≤ inner.precedence := by
  obtain ⟨-, hbound, hright, -⟩ := rightBound_of_infixOp? (BinaryOp.infixOp?_kind hop)
  rw [hright]
  rcases h with hlt | ⟨heq, hside⟩
  · exact Nat.le_trans hbound hlt
  · rw [rightBound, if_pos hside, heq]

/-- How strongly a tree over a chain binds is settled by its `topOp?`. -/
theorem Expr.InOrder.le_precedence {b : Precedence} (h : e.InOrder first rest) (hb : b ≤ .atom)
    (htop : ∀ inner, e.topOp? = some inner → b ≤ inner.precedence) : b ≤ e.precedence := by
  cases h with
  | symbol name => exact hb
  | binary op _ _ => exact htop op rfl

/-- Where a tree is `Grouped`, the operands bind as strongly as their places ask for. -/
theorem Expr.Grouped.required_le {l r : Expr} {second : String} {ls rs : List (BinaryOp × String)}
    (h : (Expr.binary op l r).Grouped) (hop : op ∈ BinaryOp.infixes) (hl : l.InOrder first ls)
    (hr : r.InOrder second rs) :
    op.required.1 ≤ l.precedence ∧ op.required.2 ≤ r.precedence := by
  obtain ⟨-, -, hlead, hfollow⟩ := h
  constructor
  · exact hl.le_precedence op.required_le_atom.1 fun inner htop =>
      (hlead inner htop).required_le hop
  · exact hr.le_precedence op.required_le_atom.2 fun inner htop =>
      (hfollow inner htop).required_le hop

/-- A tree that is `Grouped` is printed without parentheses, as its `chainText`. -/
theorem Expr.InOrder.writes_doc (h : e.InOrder first rest) (hgrouped : e.Grouped)
    (hops : ∀ x ∈ rest, x.1 ∈ BinaryOp.infixes) (s : Surface) (written : Bool) :
    (e.doc s).Writes [] written (chainText first rest).toList := by
  induction h generalizing written with
  | symbol name => simp [Expr.doc, chainText, Doc.Writes]
  | @binary left right first second ls rs op hl hr ihl ihr =>
    rw [List.forall_mem_append, List.forall_mem_cons] at hops
    have hinfix := BinaryOp.infixOp?_kind hops.2.1
    -- where a tree is grouped, no operand needs parentheses
    obtain ⟨hlb, hrb⟩ := hgrouped.required_le hops.2.1 hl hr
    rw [Expr.doc_binary s (ne_new_of_infixOp? hinfix) (ne_dot_of_infixOp? hinfix),
      Expr.fitted_of_le hlb, Expr.fitted_of_le hrb, chainText_append, String.toList_append,
      String.toList_append]
    have hop (written : Bool) :
        op.infixText.Writes [] written (" " ++ op.spelling ++ " ").toList := by
      rw [BinaryOp.infixText]
      · exact ⟨_, _, ⟨_, _, rfl, rfl, rfl⟩, rfl, by simp⟩
      · exact (rightBound_of_infixOp? hinfix).2.2.2.2.2
    exact ⟨_, _, ⟨_, _, ihl hgrouped.1 hops.1 _, hop _, rfl⟩, ihr hgrouped.2.1 hops.2.2 _, rfl⟩

/-! ## A grouped tree is what its chain is read as -/

/-- A tree of names that is `Grouped` is read back at every level of operators. -/
theorem Expr.InOrder.operandAs (h : e.InOrder first rest) (hgrouped : e.Grouped)
    (hfirst : IsName d first) (hrest : ∀ x ∈ rest, x.1 ∈ BinaryOp.infixes ∧ IsName d x.2) :
    OperandAs d e := by
  induction h with
  | symbol name => exact (PrimaryAs.symbol hfirst).operandAs fun _ => Nat.le_refl _
  | @binary left right first second ls rs op hl hr ihl ihr =>
    rw [List.forall_mem_append, List.forall_mem_cons] at hrest
    obtain ⟨hls, ⟨hop, hsecond⟩, hrs⟩ := hrest
    obtain ⟨hlb, hrb⟩ := hgrouped.required_le hop hl hr
    exact .join (BinaryOp.infixOp?_kind hop) (ihl hgrouped.1 hfirst hls) hlb
      (ihr hgrouped.2.1 hsecond hrs) hrb

theorem Expr.InOrder.settle (h : e.InOrder first rest) (s : Surface) : e.settle s = e := by
  induction h with
  | symbol name => rfl
  | binary op _ _ ihl ihr => rw [Expr.settle, ihl, ihr]

/-- No sign of a chain assigns, so none is spoilt. -/
theorem Expr.InOrder.not_divides (h : e.InOrder first rest)
    (hops : ∀ x ∈ rest, x.1 ∈ BinaryOp.infixes) : .divide ∉ e.pieces d := by
  induction h with
  | symbol name => simp [Expr.pieces]
  | @binary left right first second ls rs op hl hr ihl ihr =>
    rw [List.forall_mem_append, List.forall_mem_cons] at hops
    have hinfix := BinaryOp.infixOp?_kind hops.2.1
    rw [Expr.pieces_binary (ne_new_of_infixOp? hinfix) (ne_dot_of_infixOp? hinfix), List.mem_append,
      List.mem_cons, not_or, not_or]
    refine ⟨ihl hops.1, fun hsign => ?_, ihr hops.2.2⟩
    rw [← (Piece.token.inj hsign).1] at hinfix
    cases hinfix

/-- **A grouped tree is what its chain is read as** by `parseExpr`. -/
theorem Expr.InOrder.parseExpr_chain (h : e.InOrder first rest) (hgrouped : e.Grouped)
    (hfirst : IsName d first) (hrest : ∀ x ∈ rest, x.1 ∈ BinaryOp.infixes ∧ IsName d x.2) :
    parseExpr d (chainText first rest) = .ok e := by
  have hops : ∀ x ∈ rest, x.1 ∈ BinaryOp.infixes := fun x hx => (hrest x hx).1
  have has := (h.operandAs hgrouped hfirst hrest).assignsAs.sequencesAs.exprAs
  have hback := has.reads [.token .eof ""] rfl (show TokenKind.eof ≠ .punct .comma by decide)
  rw [h.settle] at hback
  have hcut := (has.cuts [] false _ [] nofun (h.writes_doc hgrouped hops d.surface false)
    (fun _ => trivial) fun htrails => absurd htrails e.not_trails).eq_of_not_mem
    (h.not_divides hops)
  rw [List.append_nil, cut_nil] at hcut
  refine parseExpr_of_reads ?_
  rw [hcut]
  exact hback

end Chain

/-- **A chain of operators is read as its one grouped tree.** Names that a dialect leaves free,
joined by operators with single blanks around them, are an expression. In order its names and
operators are those of the chain, each operator stands where its strength and its side put it, and
no other tree over the chain has these properties. -/
theorem existsUnique_parseExpr_chain {d : Dialect} {first : String}
    {rest : List (BinaryOp × String)} (hfirst : IsName d first)
    (hrest : ∀ x ∈ rest, x.1 ∈ BinaryOp.infixes ∧ IsName d x.2) :
    ∃ e, parseExpr d (chainText first rest) = .ok e ∧ e.InOrder first rest ∧ e.Grouped ∧
      ∀ e' : Expr, e'.InOrder first rest → e'.Grouped → e' = e := by
  obtain ⟨e, hin, hgrouped⟩ := exists_grouped first rest
  have hparse := hin.parseExpr_chain hgrouped hfirst hrest
  refine ⟨e, hparse, hin, hgrouped, fun e' hin' hgrouped' => ?_⟩
  -- whatever else is grouped so would be read from the same text
  have hparse' := hin'.parseExpr_chain hgrouped' hfirst hrest
  exact Except.ok.inj (hparse'.symm.trans hparse)

/-- Powers group to the right and differences to the left, and both stand below a comparison. -/
theorem existsUnique_parseExpr_chain_mixed :
    parseExpr .block "a - b ** c ** d - e in f" = .ok (.binary .isIn
      (.binary .sub
        (.binary .sub (.symbol "a")
          (.binary .exp (.symbol "b") (.binary .exp (.symbol "c") (.symbol "d"))))
        (.symbol "e"))
      (.symbol "f")) := by
  have hfirst : IsName .block "a" := by decide
  have hrest : ∀ x ∈ ([(.sub, "b"), (.exp, "c"), (.exp, "d"), (.sub, "e"), (.isIn, "f")] :
      List (BinaryOp × String)), x.1 ∈ BinaryOp.infixes ∧ IsName .block x.2 := by decide
  obtain ⟨e, hparse, -, -, hunique⟩ := existsUnique_parseExpr_chain hfirst hrest
  have hpower := Expr.InOrder.binary .exp (.symbol "b") (.binary .exp (.symbol "c") (.symbol "d"))
  have hin := Expr.InOrder.binary .isIn (.binary .sub (.binary .sub (.symbol "a") hpower)
    (.symbol "e")) (.symbol "f")
  refine hparse.trans (congrArg Except.ok (hunique _ hin ?_).symm)
  simp only [Expr.Grouped, Expr.topOp?, reduceCtorEq, IsEmpty.forall_iff, implies_true, and_self,
    Option.some.injEq, forall_eq', true_and, and_true]
  decide

end Diglot

import Diglot.Proofs.Operands

/-!
# Operators read back

Operators after, before and between operands, as they are printed and read back. A chain of
operators is read from left to right: what has been read of it binds at least as strongly as the
operators that may still come, and each right operand ends where an operator comes that does not
bind strongly enough. Printing keeps the operators in their order, so reading groups them as before.

- `StepAs`, `UnaryAs`: an operand with operators after and before it.
- `ClimbsAs`: what has been read of a chain of operators; `ClimbsAs.more` adds one more.
- `AssignsAs.assign`, `AssignsAs.ternary`: what binds more weakly.
- `SequencesAs`: what has been read of a chain of commas.
-/

namespace Diglot

open Rules Lexeme

variable {t : Dialect} {e : Expr} {P : Tape}

/-! ## One operand -/

/-- An operand and perhaps an operator after it is printed as some pieces, and read back as a
`.step`. -/
structure StepAs (t : Dialect) (e : Expr) (P : Tape) : Prop
    extends ValueAs t (Reads t .step) (fun k => k.prolongsValue = false) e P where
  plain : e.BeginsPlain t

/-- Without an operator after it a `MemberAs` is one. -/
theorem MemberAs.stepAs (h : MemberAs t e P) : StepAs t e P where
  toWritten := h.toWritten
  reads S hS hend :=
    have ⟨hextends, hstep, harrow⟩ := TokenKind.prolongsValue_eq_false hS
    .stepNone (h.reads S ⟨hextends, harrow⟩ hend) hstep
  plain := h.plain

theorem StepOp.leads_spelling (op : StepOp) {ok : List Char → Prop} :
    (Doc.text op.spelling).Leads ok Boundary := by
  cases op <;> exact Doc.leads_boundary rfl (by decide) (by decide)

/-- With an operator after it the operand has to bind more strongly, or else it would be in
parentheses. -/
theorem StepAs.step (h : MemberAs t e P) (ho : e.isArrow = false)
    (hbinds : .step + 1 ≤ e.precedence) {k : TokenKind} {op : StepOp} (hk : stepOp? k = some op) :
    StepAs t (.step op e) (P ++ [.token k op.spelling]) where
  cuts := by
    have hcuts : (Doc.text op.spelling).Cuts t Boundary [.token k op.spelling] := by
      unfold stepOp? at hk
      split at hk <;> cases hk
      · exact (cuts_sign .plusPlus rfl).anywhere
      · exact (cuts_sign .minusMinus rfl).anywhere
    rw [Expr.doc, Expr.fitted_of_le hbinds]
    exact h.cuts.append hcuts op.leads_spelling
  opens := h.opens.append _
  reads S _ _ := by
    -- the sign after the operand does not go on the value
    have hkind : k.extendsValue = false ∧ k ≠ .punct .arrow := by
      unfold stepOp? at hk
      split at hk <;> first | cases hk; decide | cases hk
    rw [List.append_assoc]
    exact .stepSome (h.reads _ hkind fun ho' => absurd ho' (by simp [ho])) .cons hk
      (by simpa using ho)
  plain := by
    rw [Expr.BeginsPlain, Expr.doc, Expr.fitted_of_le hbinds]
    exact leads_plain_append h.plain

/-- An operand with the operators before it is printed as some pieces, and read back as a
`.unary`. What it begins with is such that an operator before it may need a blank. -/
structure UnaryAs (t : Dialect) (e : Expr) (P : Tape) : Prop
    extends ValueAs t (Reads t .unary) (fun k => k.prolongsValue = false) e P where
  starts : (e.doc t.surface).Leads Anything e.Starts

/-- Without an operator before it a `StepAs` is one. -/
theorem StepAs.unaryAs (h : StepAs t e P) : UnaryAs t e P where
  toWritten := h.toWritten
  reads S hS hend :=
    have hread := h.reads S hS hend
    .unaryNone hread.kind_of_step hread
  starts indent T rest hindent hT hrest := (h.plain indent T rest hindent hT hrest).starts e

/-- An operator other than `new` is printed with its `gap` before the operand. -/
theorem Expr.doc_unary (s : Surface) {k : TokenKind} {op : UnaryOp} (hk : unaryOp? k = some op)
    (e : Expr) :
    (Expr.unary op e).doc s = op.spelling ++ op.gap e ++ e.fitted .unary (e.doc s) := by
  unfold unaryOp? at hk
  split at hk <;> cases hk <;> rw [Expr.doc] <;> nofun

/-- Between an operator and its operand there is a `UnaryOp.gap`, or nothing that would make one
token of the two. -/
theorem cuts_gap {op : UnaryOp} (h : (e.doc t.surface).Cuts t Boundary P)
    (hstarts : (e.doc t.surface).Leads Anything e.Starts) {Q : Tape}
    (hop : (Doc.text op.spelling).Cuts t op.Before Q) :
    (op.spelling ++ op.gap e ++ e.doc t.surface).Cuts t Boundary (Q ++ P) := by
  unfold UnaryOp.gap
  cases hgap : op.isWord || op.mergesWith e with
  | true =>
    -- a blank keeps the operator apart from what follows
    have hspace : (Doc.text " ").Leads Anything op.Before :=
      Doc.leads_text fun rest _ => op.before_space rest
    exact ((hop.append (Q := []) cuts_space hspace).then h).pieces (by simp)
  | false =>
    rw [Bool.or_eq_false_iff] at hgap
    -- without a gap the operand does not begin with a sign that would run into the operator
    have hlead : (e.doc t.surface).Leads Boundary op.Before := by
      intro indent T rest hindent hT _
      obtain ⟨c, cs, hcs, heq, hminus, hplus⟩ := hstarts indent T rest hindent hT trivial
      refine ⟨c, cs, hcs, fun hw => absurd hw (by simp [hgap.1]), heq, ?_, ?_⟩
      · rintro rfl hc
        exact absurd (hminus hc) (by simp [hgap.2])
      · rintro rfl hc
        exact absurd (hplus hc) (by simp [hgap.2])
    exact ((hop.append (Q := []) Doc.cuts_empty Doc.leads_empty).append h hlead).pieces (by simp)

/-- One more operator before an operand. -/
theorem UnaryAs.unary (h : UnaryAs t e P) (ho : e.isArrow = false)
    (hbinds : .unary ≤ e.precedence) {k : TokenKind} {op : UnaryOp} (hk : unaryOp? k = some op) :
    UnaryAs t (.unary op e) (.token k op.spelling :: P) where
  cuts := by
    rw [Expr.doc_unary _ hk, Expr.fitted_of_le hbinds]
    exact cuts_gap h.cuts h.starts (cuts_unary hk)
  opens := Tape.opens_cons _ _ _
  reads S hS _ :=
    .unarySome .cons hk (h.reads S hS fun ho' => absurd ho' (by simp [ho])) (by simpa using ho)
  starts := by
    have hspelling (rest : List Char) : (Expr.unary op e).Starts (op.spelling.toList ++ rest) := by
      cases op <;> refine ⟨_, _, rfl, by decide, ?_, ?_⟩ <;>
      first | exact fun _ => rfl | exact fun hc => absurd hc (by decide)
    rw [Expr.doc_unary _ hk]
    exact ((Doc.leads_text fun rest _ => hspelling rest).append Doc.leads_anything).append
      Doc.leads_anything

/-! ## Chains of operators -/

/-- Operands joined by operators that bind at least as strongly as `b` are printed as some
pieces, and read back as a `.climb b`. -/
abbrev ClimbAs (t : Dialect) (b : Precedence) : Expr → Tape → Prop :=
  ValueAs t (Reads t (.climb b))
    fun k => k.prolongsValue = false ∧ ∀ op, infixOp? k = some op → op.precedence < b

/-- What has been read of a chain of operators is printed as some pieces. Before an operator
that binds less strongly than `c`, what goes on from it by `.climbFrom b` is read from them and
what follows. -/
structure ClimbsAs (t : Dialect) (b c : Precedence) (e : Expr) (P : Tape) : Prop
    extends e.Written t P where
  le : b ≤ c
  binds : e.isArrow = false → c ≤ e.precedence + 1
  power : e.isArrow = false → .unary ≤ c → isOpenUnary e = false → .step ≤ e.precedence
  goesOn : ∀ (S : Tape) (x : Expr) (S' : Tape), S.kind.prolongsValue = false →
    (∀ op, infixOp? S.kind = some op → op.precedence < c) →
    (e.isArrow = true → S.kind.prolongs = false) →
    Reads t (.climbFrom b (e.settle t.surface)) S x S' → Reads t (.climb b) (P ++ S) x S'

/-- A chain from which nothing goes on is read as it is. -/
theorem ClimbsAs.climbAs {b c : Precedence} (h : ClimbsAs t b c e P) : ClimbAs t b e P where
  toWritten := h.toWritten
  reads S hS hend :=
    h.goesOn S _ S hS.1 (fun op hop => Nat.lt_of_lt_of_le (hS.2 op hop) h.le) hend (.climbEnd hS.2)

/-- A chain begins with one operand, which every operator may follow. -/
theorem UnaryAs.climbsAs (h : UnaryAs t e P) {b : Precedence} (hb : b ≤ .unary)
    (hbinds : e.isArrow = false →
      .unary ≤ e.precedence ∧ (isOpenUnary e = false → .step ≤ e.precedence)) :
    ClimbsAs t b .unary e P where
  toWritten := h.toWritten
  le := hb
  binds ho := Nat.le_succ_of_le (hbinds ho).1
  power ho _ := (hbinds ho).2
  goesOn S _ _ hS _ hend hx := .climb (h.reads S hS hend) hx

theorem Expr.doc_binary (s : Surface) {op : BinaryOp} (hnew : op ≠ .new) (hdot : op ≠ .dot)
    (l r : Expr) :
    (Expr.binary op l r).doc s =
      l.fitted op.required.1 (l.doc s) ++ op.infixText ++ r.fitted op.required.2 (r.doc s) := by
  rw [Expr.doc] <;> assumption

/-- The pieces of an operator between operands that bind as strongly as `BinaryOp.required`
asks, so that they stand without parentheses. -/
theorem cuts_binary {op : BinaryOp} (hnew : op ≠ .new) (hdot : op ≠ .dot) {l r : Expr} {O Q : Tape}
    (hl : (l.doc t.surface).Cuts t Boundary P) (hlb : op.required.1 ≤ l.precedence)
    (hop : op.infixText.Cuts t Anything O) (hr : (r.doc t.surface).Cuts t Boundary Q)
    (hrb : op.required.2 ≤ r.precedence) :
    ((Expr.binary op l r).doc t.surface).Cuts t Boundary (P ++ (O ++ Q)) := by
  rw [Expr.doc_binary _ hnew hdot, Expr.fitted_of_le hlb, Expr.fitted_of_le hrb]
  exact ((hl.append hop op.leads_infixText).then hr).pieces (by simp)

/-- What `rightBound` and `BinaryOp.required` have to do with each other, for the operators of a
chain. -/
theorem rightBound_of_infixOp? {k : TokenKind} {op : BinaryOp} (h : infixOp? k = some op) :
    op.precedence ≤ rightBound op ∧ rightBound op ≤ op.precedence + 1 ∧
      op.required.2 = rightBound op ∧ (op ≠ .exp → op.required.1 = op.precedence) ∧
      op.precedence ≤ .exponent ∧ op ≠ .comma := by
  unfold infixOp? at h
  split at h <;> cases h <;> decide

/-- An operator is left behind by the right operand of another, bound by `rightBound`, exactly
if that one is strong enough to be its left operand. -/
theorem lt_rightBound_iff {k k' : TokenKind} {op op' : BinaryOp} (hk : infixOp? k = some op)
    (hk' : infixOp? k' = some op') :
    op'.precedence < rightBound op ↔ op'.required.1 ≤ op.precedence := by
  obtain ⟨-, hle, -, -, hexp, -⟩ := rightBound_of_infixOp? hk
  by_cases hop' : op' = .exp
  · -- nothing binds more strongly than a power sign
    subst hop'
    refine iff_of_false (fun h => ?_) fun h => ?_
    · exact absurd (Nat.lt_of_lt_of_le h (precedence_of_infixOp? hk).2) (by decide)
    · exact absurd (Nat.le_trans h hexp) (by decide)
  · rw [(rightBound_of_infixOp? hk').2.2.2.1 hop']
    refine ⟨fun h => Nat.le_of_lt_succ (Nat.lt_of_lt_of_le h hle), fun h => ?_⟩
    by_cases hop : op = .exp
    · -- and nothing else as strongly
      subst hop
      have hne : op'.precedence ≠ BinaryOp.exp.precedence := by
        unfold infixOp? at hk'
        split at hk' <;> cases hk' <;> first | decide | exact absurd rfl hop'
      exact Nat.lt_of_le_of_ne h hne
    · have hright : rightBound op = op.precedence + 1 := by
        unfold infixOp? at hk
        split at hk <;> cases hk <;> first | rfl | exact absurd rfl hop
      rw [hright]
      exact Nat.lt_succ_of_le h

/-- One more operator in a chain. From now on only operators below its `rightBound` may come. -/
theorem ClimbsAs.more {b c : Precedence} {l r : Expr} {Q : Tape} (h : ClimbsAs t b c l P)
    {k : TokenKind} {op : BinaryOp} (hk : infixOp? k = some op) (hb : b ≤ op.precedence)
    (hc : op.precedence < c) (hl : l.isArrow = false)
    (hu : ¬(op = .exp ∧ isOpenUnary l = true)) (hr : ClimbAs t (rightBound op) r Q)
    (ho : r.isArrow = false) (hrb : rightBound op ≤ r.precedence) :
    ClimbsAs t b (rightBound op) (.binary op l r) (P ++ .token k op.spelling :: Q) := by
  obtain ⟨hle, hle', hright, hleft, hexp, hcomma⟩ := rightBound_of_infixOp? hk
  -- the left operand stands without parentheses: a power sign asks for more than its own
  -- strength
  have hlb : op.required.1 ≤ l.precedence := by
    by_cases hop : op = .exp
    · subst hop
      exact h.power hl hc (by simpa using hu)
    · rw [hleft hop]
      exact Nat.le_of_lt_succ (Nat.lt_of_lt_of_le hc (h.binds hl))
  refine ⟨⟨?_, h.opens.append _⟩, Nat.le_trans hb hle, fun _ => hle', ?_, ?_⟩
  · exact cuts_binary (ne_new_of_infixOp? hk) (ne_dot_of_infixOp? hk) h.cuts hlb
      (BinaryOp.cuts_infixText hcomma (cuts_infixOp hk)) hr.cuts (by rwa [hright])
  · intro _ hpower
    exact absurd (Nat.le_trans hpower (precedence_of_infixOp? hk).2) (by decide)
  · intro S x S' hS hjoins _ hx
    rw [List.append_assoc, List.cons_append]
    refine h.goesOn _ x S' (prolongsValue_of_infixOp? hk) ?_
      (fun hl' => absurd hl' (by simp [hl])) ?_
    · intro op' hop'
      obtain rfl : op = op' := Option.some.inj (hk.symm.trans hop')
      exact hc
    · -- the right operand is read to its end, since the next operator is below its bound
      have hright := hr.reads S ⟨hS, hjoins⟩ fun ho' => absurd ho' (by simp [ho])
      exact .climbMore .cons hk hb (by simpa using hl) (by simpa using hu) hright
        (by simpa using ho) hx

/-! ## Assignments -/

/-- A chain of operators with no assignment after it. -/
theorem AssignsAs.ofClimb (h : ClimbAs t .or e P) (hbinds : .assignment ≤ e.precedence) :
    AssignsAs t e P where
  toWritten := h.toWritten
  binds := hbinds
  reads S hS := by
    obtain ⟨hvalue, hjoins, hassign, hquestion⟩ := TokenKind.prolongs_eq_false hS
    exact .assignmentNone (h.reads S ⟨hvalue, by simp [hjoins]⟩ fun _ => hS) hassign hquestion

/-- An assignment, whose value may be another one. -/
theorem AssignsAs.assign {l r : Expr} {Q : Tape} (hl : ClimbAs t .or l P) (ho : l.isArrow = false)
    (hlb : .or ≤ l.precedence) (hr : AssignsAs t r Q) {op : BinaryOp}
    (hop : op.precedence = .assignment) :
    AssignsAs t (.binary op l r) (P ++ .token .assign op.spelling :: Q) where
  cuts := by
    -- an assignment asks for less on its right than on its left
    have hrequired : op.required = (.or, .assignment) ∧ op ≠ .comma ∧ op ≠ .new := by
      cases op <;> first | exact absurd hop (by decide) | decide
    exact cuts_binary hrequired.2.2 (ne_dot_of_assignment hop) hl.cuts
      (by rw [hrequired.1]; exact hlb)
      (BinaryOp.cuts_infixText hrequired.2.1 (cuts_assign hop)) hr.cuts
      (by rw [hrequired.1]; exact hr.binds)
  opens := hl.opens.append _
  binds := Nat.le_of_eq hop.symm
  reads S hS := by
    have hleft := hl.reads (.token .assign op.spelling :: (Q ++ S)) ⟨rfl, nofun⟩
      fun ho' => absurd ho' (by simp [ho])
    rw [List.append_assoc, List.cons_append]
    exact .assignmentSome hleft (.token _ _ _) op.ofSpelling?_spelling hop (by simpa using ho)
      (hr.reads S hS)

/-- A ternary, whose parts may be assignments. -/
theorem AssignsAs.ternary {c y n : Expr} {Q R : Tape} (hc : ClimbAs t .or c P)
    (ho : c.isArrow = false) (hcb : .ternary + 1 ≤ c.precedence) (hy : AssignsAs t y Q)
    (hn : AssignsAs t n R) :
    AssignsAs t (.ternary c y n) (P ++ .sign .question :: (Q ++ .sign .colon :: R)) where
  cuts := by
    rw [Expr.doc, Expr.fitted_of_le hcb, Expr.fitted_of_le hy.binds, Expr.fitted_of_le hn.binds]
    have hquestion : (Doc.text " ? ").Cuts t Anything [.sign .question] :=
      cuts_spaceSignSpace rfl rfl
    have hcolon : (Doc.text " : ").Cuts t Anything [.sign .colon] := cuts_spaceSignSpace rfl rfl
    exact ((((hc.cuts.append hquestion (leads_space rfl)).then hy.cuts).append hcolon
      (leads_space rfl)).then hn.cuts).pieces (by simp)
  opens := hc.opens.append _
  binds := Nat.le_refl _
  reads S hS := by
    have htest := hc.reads (.sign .question :: (Q ++ .sign .colon :: (R ++ S))) ⟨rfl, nofun⟩
      fun ho' => absurd ho' (by simp [ho])
    simp only [List.append_assoc, List.cons_append]
    exact .ternary htest .cons (by simpa using ho) (hy.reads _ rfl) .cons (hn.reads S hS)

/-! ## Commas -/

/-- What has been read of a chain of commas is printed as some pieces, and what goes on from it
by `.sequenceFrom` is read from them and what follows. -/
structure SequencesAs (t : Dialect) (e : Expr) (P : Tape) : Prop extends e.Written t P where
  goesOn : ∀ (S : Tape) (x : Expr) (S' : Tape), S.kind.prolongs = false →
    Reads t (.sequenceFrom (e.settle t.surface)) S x S' → Reads t .expr (P ++ S) x S'

theorem SequencesAs.exprAs (h : SequencesAs t e P) : ExprAs t e P where
  toWritten := h.toWritten
  reads S hS hcomma := h.goesOn S _ S hS (.sequenceEnd hcomma)

theorem AssignsAs.sequencesAs (h : AssignsAs t e P) : SequencesAs t e P where
  toWritten := h.toWritten
  goesOn S _ _ hS hx := .expr (h.reads S hS) hx

/-- One more operand in a chain of commas. -/
theorem SequencesAs.comma {l r : Expr} {Q : Tape} (h : SequencesAs t l P) (hr : AssignsAs t r Q) :
    SequencesAs t (.binary .comma l r) (P ++ .sign .comma :: Q) where
  cuts := by
    have hop : BinaryOp.comma ≠ .new ∧ BinaryOp.comma ≠ .dot := by decide
    exact cuts_binary hop.1 hop.2 h.cuts l.comma_le_precedence cuts_comma hr.cuts hr.binds
  opens := h.opens.append _
  goesOn S x S' hS hx := by
    rw [List.append_assoc, List.cons_append]
    exact h.goesOn _ x S' rfl (.sequenceMore .cons (hr.reads S hS) hx)

end Diglot

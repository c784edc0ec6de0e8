import Diglot.Proofs.LoneExpr
import Diglot.Proofs.Regrouped

/-!
# Expressions put together by hand

An expression that no text was read for, of nodes that are built as they should be, is printed with
parentheses enough: what is read back is the expression, up to parentheses around single
expressions. The argument is about the regrouped tree, in which the parentheses that printing adds
are nodes. Each of its operands binds as strongly as its place asks for, and from this alone its
pieces are read back at every level of operators.

- `Place`: where an expression stands, as far as commas and lists go.
- `Expr.WellBuilt`: expressions as they may be put together.
- `Expr.sound_regroup`: the nodes of the regrouped tree are as in a parsed one.
- `OperandAs`: an expression is read back at every level of operators that it is strong enough for.
- `Expr.readsBack_regroup`: the regrouped tree is read back.
- `parseExpr_printExpr_of_wellBuilt`: printing and reading changes parentheses alone.
-/

namespace Diglot

open Rules Lexeme

/-! ## Literals -/

/-- A literal that its text is read as by `parseExpr`: alone, the text is one token of the
literal's kind, and its value is the one that reading gives it. -/
def Literal.WellBuilt (d : Dialect) (v : Literal) : Prop :=
  parseExpr d v.text = .ok (.literal v)

/-- If an expression is a literal, then a token with its spelling means it. -/
def Expr.MeansLiteral (d : Dialect) (e : Expr) : Prop :=
  ∀ v, e = .literal v → ∀ S, Reads d .primary (.token v.kind v.text :: S) (.literal v) S

/-- A literal that a phrase means is that of one token, by `Expr.MeansLiteral`. -/
def Phrase.MeansLiteral (d : Dialect) : (φ : Phrase) → φ.Out → Prop
  | .memberFrom l, e | .climbFrom _ l, e | .sequenceFrom l, e =>
    l.MeansLiteral d → e.MeansLiteral d
  | .primary, e | .member, e | .step, e | .unary, e | .climb _, e | .assignment, e | .expr, e =>
    e.MeansLiteral d
  | _, _ => True

/-- Whatever is read, if it is a literal then a token with its spelling means it. -/
theorem Reads.meansLiteral {d : Dialect} {φ : Phrase} {S S' : Tape} {a : φ.Out}
    (h : Reads d φ S a S') : φ.MeansLiteral d a := by
  induction h with
  | boolean _ =>
    rintro v ⟨⟩ S
    exact .boolean (.token _ _ _)
  | fixnum _ hr =>
    rintro v ⟨⟩ S
    exact .fixnum (.token _ _ _) hr
  | flonum _ =>
    rintro v ⟨⟩ S
    exact .flonum (.token _ _ _)
  | string _ =>
    rintro v ⟨⟩ S
    exact .string (.token _ _ _)
  | regexp _ =>
    rintro v ⟨⟩ S
    exact .regexp (.token _ _ _)
  | memberEnd _ | climbEnd _ | sequenceEnd _ => exact id
  | memberCall _ _ _ _ ih | memberIndex _ _ _ _ _ _ ih | memberDot _ _ _ _ _ ih
  | climbMore _ _ _ _ _ _ _ _ _ ih | sequenceMore _ _ _ _ ih => exact fun _ => ih nofun
  | newCall _ _ _ _ _ _ _ ih => exact ih nofun
  | member _ _ _ ihe ih | climb _ _ ihe ih | expr _ _ ihe ih => exact ih ihe
  | stepNone _ _ ih | unaryNone _ _ ih | assignmentNone _ _ _ ih => exact ih
  | symbol _ | object _ _ _ _ | array _ _ _ _ | grouping _ _ _ | list _ _ _ _ _
  | functionNamed _ _ _ _ _ _ | functionBare _ _ _ _ _ _ | arrow _ _ _ _ _ _
  | arrowBlock _ _ _ _ _ | newBare _ _ _ _ _ | stepSome _ _ _ _ _ | unarySome _ _ _ _ _
  | assignmentSome _ _ _ _ _ _ _ _ | ternary _ _ _ _ _ _ _ _ _ => exact nofun
  | _ => trivial

namespace Literal.WellBuilt

variable {d : Dialect} {v : Literal}

/-- The text of such a literal is `Genuine`. -/
theorem genuine (h : v.WellBuilt d) : Genuine d v.text v.kind := by
  obtain ⟨S, hreads, -⟩ := reads_of_parseExpr h
  have hparsed : AllNodes (Node.Parsed d) (Expr.literal v).nodes :=
    hreads.parsed (proper_cut d v.text.toList).allGenuine allNodes_nil
  exact (allNodes_cons.1 hparsed).1.formed

/-- A token with the spelling of a literal means it. -/
theorem reads (h : v.WellBuilt d) (S : Tape) :
    Reads d .primary (.token v.kind v.text :: S) (.literal v) S := by
  obtain ⟨S', hreads, -⟩ := reads_of_parseExpr h
  exact hreads.meansLiteral v rfl S

end Literal.WellBuilt

/-! ## Expressions -/

/-- Where an expression stands, as far as commas and lists go. -/
inductive Place where
  /-- Where commas may join assignments. -/
  | sequence
  | operand
  /-- After a callee, where a list may have one element or none. -/
  | arguments
  deriving DecidableEq, Repr

namespace BinaryOp

/-- The place to the left of an operator. -/
def leftPlace : BinaryOp → Place
  | .comma => .sequence
  | _ => .operand

/-- The place to the right of an operator. -/
def rightPlace : BinaryOp → Place
  | .new => .arguments
  | _ => .operand

end BinaryOp

/-- A key that is a name, or the spelling of a string by `Literal.WellBuilt`. -/
def Key.WellBuilt (d : Dialect) : Key → Prop
  | .symbol name => IsName d name
  | .string value text => (Literal.string value text).WellBuilt d

mutual

/-- An expression as it may be put together: of names that a dialect leaves free, of literals that
are read as what they are, and of nodes that the checked constructors admit. A comma stands only
where it joins assignments, and a list that could be taken for a pair of parentheses only after a
callee. Functions with a block and the sign `/=` are left out. -/
def Expr.WellBuilt (d : Dialect) : Expr → Place → Prop
  | .symbol name, _ => IsName d name
  | .literal value, _ => value.WellBuilt d
  | .grouping inner, _ => inner.WellBuilt d .operand
  | .unary op operand, _ =>
    Expr.unary? op operand = .ok (.unary op operand) ∧ operand.WellBuilt d .operand
  | .step _ operand, _ => operand.WellBuilt d .operand
  | .binary op left right, place =>
    Expr.binary? op left right = .ok (.binary op left right) ∧ op ≠ .divAssign ∧
      (op = .comma → place = .sequence) ∧ left.WellBuilt d op.leftPlace ∧
      if op = .dot then ∃ name, right = .symbol name ∧ IsWord name
      else right.WellBuilt d op.rightPlace
  | .ternary test yes no, _ =>
    test.WellBuilt d .operand ∧ yes.WellBuilt d .operand ∧ no.WellBuilt d .operand
  | .call callee arguments, _ =>
    Expr.call? callee arguments = .ok (.call callee arguments) ∧
      callee.WellBuilt d .operand ∧ arguments.WellBuilt d .arguments
  | .index target position, _ => target.WellBuilt d .operand ∧ position.WellBuilt d .sequence
  | .object es, _ => Entry.AllWellBuilt d es
  | .list es trailingComma, place =>
    (place ≠ .arguments → 2 ≤ es.length ∨ trailingComma = true) ∧
      (trailingComma = true → es ≠ []) ∧ Expr.AllWellBuilt d es
  | .array es, _ => Expr.AllWellBuilt d es
  | .arrow params body, _ => (∀ p ∈ params, IsName d p) ∧ body.WellBuilt d .operand
  | .function .., _ | .arrowBlock .., _ => False

/-- Elements as they may be put together. -/
def Expr.AllWellBuilt (d : Dialect) : List Expr → Prop
  | [] => True
  | e :: es => e.WellBuilt d .operand ∧ Expr.AllWellBuilt d es

/-- Object entries as they may be put together. -/
def Entry.AllWellBuilt (d : Dialect) : List Entry → Prop
  | [] => True
  | .shorthand key :: es => key.WellBuilt d ∧ Entry.AllWellBuilt d es
  | .pair key value :: es =>
    key.WellBuilt d ∧ value.WellBuilt d .operand ∧ Entry.AllWellBuilt d es

end

section Checked

variable {op : BinaryOp} {left right : Expr}

/-- What `Expr.binary?` has checked of the operands that it takes. -/
theorem Expr.checked_of_binary? (h : Expr.binary? op left right = .ok (.binary op left right)) :
    (op = .new → left.isSymbolPath = true ∧ right.isList = true) ∧
      (op = .dot → right.isSymbol = true) := by
  have hnode := (Expr.binary?_eq_ok_iff.1 h).1
  constructor
  · rintro rfl
    exact hnode
  · rintro rfl
    exact hnode

/-- What `Expr.call?` has checked of the arguments. -/
theorem Expr.isList_of_call? (h : Expr.call? left right = .ok (.call left right)) :
    right.isList = true :=
  (Expr.call?_eq_ok_iff.1 h).1

theorem Expr.isSymbolPath_of_unary? {operand : Expr}
    (h : Expr.unary? .new operand = .ok (.unary .new operand)) : operand.isSymbolPath = true :=
  (Expr.unary?_eq_ok_iff.1 h).1

end Checked

/-! ## Nodes -/

/-- A node that is `Node.Parsed`, and not a `BinaryOp.divAssign`. -/
structure Node.Sound (d : Dialect) (n : Node) : Prop extends n.Parsed d where
  notDivide : ∀ l r, n ≠ .expr (.binary .divAssign l r)

section Sound

variable {d : Dialect}

/-- A node with no name of its own, which is `Node.Formed`. -/
theorem Node.sound_of_formed {n : Node} (hnames : n.names = []) (hformed : n.Formed d)
    (hdivide : ∀ l r, n ≠ .expr (.binary .divAssign l r)) : n.Sound d where
  names := by simp [hnames]
  formed := hformed
  notDivide := hdivide

theorem Expr.allSound_grouping {e : Expr} (h : AllNodes (Node.Sound d) e.nodes) :
    AllNodes (Node.Sound d) (Expr.grouping e).nodes :=
  allNodes_cons.2 ⟨Node.sound_of_formed rfl trivial nofun, h⟩

/-- The parentheses that `Expr.fit` adds are sound. -/
theorem Expr.allSound_fit {e : Expr} (h : AllNodes (Node.Sound d) e.nodes) (required : Precedence) :
    AllNodes (Node.Sound d) (e.fit required).nodes := by
  unfold Expr.fit
  split
  · exact e.allSound_grouping h
  · exact h

/-- The key of a sound entry is genuine. -/
theorem Key.WellBuilt.sound {key : Key} (h : key.WellBuilt d) :
    key.Genuine d ∧ ∀ n ∈ key.names, IsName d n := by
  cases key with
  | symbol name =>
    have hname : IsName d name := h
    exact ⟨trivial, by simpa [Key.names] using hname⟩
  | string value text => exact ⟨Literal.WellBuilt.genuine h, by simp [Key.names]⟩

mutual

/-- The nodes of `Expr.regroup` are as in a parsed tree. -/
theorem Expr.sound_regroup : ∀ (e : Expr) {place : Place}, e.WellBuilt d place →
    AllNodes (Node.Sound d) (e.regroup d.surface).nodes
  | .symbol name, _, h => by
    have hname : IsName d name := h
    exact allNodes_cons.2 ⟨⟨⟨by simpa [Node.names] using hname, trivial⟩, nofun⟩, allNodes_nil⟩
  | .literal value, _, h =>
    allNodes_cons.2 ⟨Node.sound_of_formed rfl (Literal.WellBuilt.genuine h) nofun, allNodes_nil⟩
  | .grouping inner, _, h => Expr.allSound_grouping (inner.sound_regroup h)
  | .unary op operand, _, h => by
    refine allNodes_cons.2 ⟨Node.sound_of_formed rfl ?_ nofun,
      Expr.allSound_fit (operand.sound_regroup h.2) _⟩
    rintro rfl
    show ((operand.regroup d.surface).fit .member).isSymbolPath = true
    simpa using Expr.isSymbolPath_of_unary? h.1
  | .step op operand, _, h =>
    allNodes_cons.2 ⟨Node.sound_of_formed rfl trivial nofun,
      Expr.allSound_fit (operand.sound_regroup h) _⟩
  | .binary op left right, _, h => by
    obtain ⟨hchecked, hdivide, -, hleft, hright⟩ := h
    obtain ⟨hnew, -⟩ := Expr.checked_of_binary? hchecked
    have ihl := left.sound_regroup hleft
    cases op with
    | new =>
      have hnode : Node.Formed d (.expr (.binary .new ((left.regroup d.surface).fit .member)
          (right.regroup d.surface))) :=
        ⟨fun _ => by simpa using hnew rfl, nofun⟩
      exact allNodes_cons.2 ⟨Node.sound_of_formed rfl hnode nofun, allNodes_append.2
        ⟨Expr.allSound_fit ihl _, right.sound_regroup hright⟩⟩
    | dot =>
      have hnode : Node.Formed d (.expr (.binary .dot ((left.regroup d.surface).fit .member)
          right)) :=
        ⟨nofun, fun _ => hright⟩
      exact allNodes_cons.2 ⟨Node.sound_of_formed rfl hnode nofun, allNodes_append.2
        ⟨Expr.allSound_fit ihl _, allNodes_nil⟩⟩
    | divAssign => exact absurd rfl hdivide
    | _ =>
      exact allNodes_cons.2 ⟨Node.sound_of_formed rfl ⟨nofun, nofun⟩ nofun, allNodes_append.2
        ⟨Expr.allSound_fit ihl _, Expr.allSound_fit (right.sound_regroup hright) _⟩⟩
  | .ternary test yes no, _, h => by
    refine allNodes_cons.2 ⟨Node.sound_of_formed rfl trivial nofun, allNodes_append.2
      ⟨allNodes_append.2 ⟨?_, ?_⟩, ?_⟩⟩
    · exact Expr.allSound_fit (test.sound_regroup h.1) _
    · exact Expr.allSound_fit (yes.sound_regroup h.2.1) _
    · exact Expr.allSound_fit (no.sound_regroup h.2.2) _
  | .call callee arguments, _, h => by
    have hnode : Node.Formed d (.expr (.call ((callee.regroup d.surface).fit .member)
        (arguments.regroup d.surface))) := by
      show (arguments.regroup d.surface).isList = true
      simpa using Expr.isList_of_call? h.1
    exact allNodes_cons.2 ⟨Node.sound_of_formed rfl hnode nofun, allNodes_append.2
      ⟨Expr.allSound_fit (callee.sound_regroup h.2.1) _, arguments.sound_regroup h.2.2⟩⟩
  | .index target position, _, h =>
    allNodes_cons.2 ⟨Node.sound_of_formed rfl trivial nofun, allNodes_append.2
      ⟨Expr.allSound_fit (target.sound_regroup h.1) _, position.sound_regroup h.2⟩⟩
  | .object es, _, h =>
    allNodes_cons.2 ⟨Node.sound_of_formed rfl trivial nofun, Entry.sound_regroups es h⟩
  | .list es comma, _, h =>
    allNodes_cons.2 ⟨Node.sound_of_formed rfl trivial nofun, Expr.sound_regroups es h.2.2⟩
  | .array es, _, h =>
    allNodes_cons.2 ⟨Node.sound_of_formed rfl trivial nofun, Expr.sound_regroups es h⟩
  | .arrow params body, _, h => by
    have ih := body.sound_regroup h.2
    rw [Expr.regroup]
    split
    · exact allNodes_cons.2 ⟨⟨⟨h.1, rfl⟩, nofun⟩, Expr.allSound_grouping ih⟩
    · next hblock =>
      have hbody := Expr.readsAsBlock_fit_regroup .assignment (Bool.not_eq_true _ ▸ hblock)
      exact allNodes_cons.2 ⟨⟨⟨h.1, hbody⟩, nofun⟩, Expr.allSound_fit ih _⟩
  | .function .., _, h | .arrowBlock .., _, h => h.elim

/-- So are those of several expressions, each fitted to its place. -/
theorem Expr.sound_regroups : ∀ es : List Expr, Expr.AllWellBuilt d es →
    AllNodes (Node.Sound d) (Expr.nodesOf (Expr.regroups d.surface es))
  | [], _ => allNodes_nil
  | e :: es, h =>
    allNodes_append.2 ⟨Expr.allSound_fit (e.sound_regroup h.1) _, Expr.sound_regroups es h.2⟩

theorem Entry.sound_regroups : ∀ es : List Entry, Entry.AllWellBuilt d es →
    AllNodes (Node.Sound d) (Entry.nodesOf (Entry.regroups d.surface es))
  | [], _ => allNodes_nil
  | .shorthand _ :: es, h =>
    allNodes_cons.2 ⟨⟨⟨h.1.sound.2, h.1.sound.1⟩, nofun⟩, Entry.sound_regroups es h.2⟩
  | .pair _ value :: es, h =>
    allNodes_cons.2 ⟨⟨⟨h.1.sound.2, h.1.sound.1⟩, nofun⟩, allNodes_append.2
      ⟨Expr.allSound_fit (value.sound_regroup h.2.1) _, Entry.sound_regroups es h.2.2⟩⟩

end

end Sound

/-! ## Levels of operators -/

/-- An expression may stand at a level of operators, by its `precedence`. An arrow function may
stand at every level where nothing goes on from it. -/
def Expr.StandsAt (b : Precedence) (e : Expr) : Prop :=
  e.isArrow = false → b ≤ e.precedence

/-- An expression may stand where operators before an operand do, and before a power sign too
unless it `isOpenUnary`. -/
def Expr.StandsUnary (e : Expr) : Prop :=
  e.isArrow = false → .unary ≤ e.precedence ∧ (isOpenUnary e = false → .step ≤ e.precedence)

/-- What has been read of a chain of operators is printed as some pieces, by `ClimbsAs`, and
every operator that asks for no more than it has may follow. -/
def ClimbsFar (t : Dialect) (b : Precedence) (e : Expr) (P : Tape) : Prop :=
  ∃ c, (∀ k op, infixOp? k = some op → op.required.1 ≤ e.precedence → op.precedence < c) ∧
    ClimbsAs t b c e P

/-- An expression is printed as its `pieces`, and read back at every level that it may stand at. -/
structure OperandAs (t : Dialect) (e : Expr) : Prop where
  extendsAs : e.StandsAt .member → ExtendsAs t e (e.pieces t)
  memberAs : e.StandsAt .bareNew → MemberAs t e (e.pieces t)
  unaryAs : e.StandsAt .unary → UnaryAs t e (e.pieces t)
  climbsFar : ∀ b, .or ≤ b → b ≤ .unary → e.StandsAt b → ClimbsFar t b e (e.pieces t)
  assignsAs : AssignsAs t e (e.pieces t)

section Levels

variable {t : Dialect} {e : Expr}

namespace Expr

/-- An expression that binds too weakly does not stand at a level. -/
theorem not_standsAt {b : Precedence} (ho : e.isArrow = false) (h : e.precedence < b) :
    ¬e.StandsAt b :=
  fun hb => Nat.not_le.2 h (hb ho)

theorem isArrow_of_or_le (h : .or ≤ e.precedence) : e.isArrow = false := by
  cases ho : e.isArrow with
  | false => rfl
  | true => exact absurd (precedence_of_isArrow ho ▸ h) (by decide)

/-- What `isOpenUnary` binds as operators before an operand do. -/
theorem precedence_of_isOpenUnary (h : isOpenUnary e = true) : e.precedence = .unary := by
  cases e with
  | unary op x => cases op <;> first | rfl | cases h
  | _ => cases h

theorem StandsAt.standsUnary (h : e.StandsAt .step) : e.StandsUnary :=
  fun ho => ⟨Nat.le_trans (by decide) (h ho), fun _ => h ho⟩

theorem standsUnary_of_isOpenUnary (h : isOpenUnary e = true) : e.StandsUnary :=
  fun _ => ⟨Nat.le_of_eq (precedence_of_isOpenUnary h).symm, fun hclosed => by simp [h] at hclosed⟩

end Expr

/-- At a level of a chain nothing has to go on from it. -/
theorem OperandAs.climbAs (h : OperandAs t e) {b : Precedence} (hor : .or ≤ b) (hb : b ≤ .unary)
    (he : e.StandsAt b) : ClimbAs t b e (e.pieces t) := by
  obtain ⟨c, -, hclimbs⟩ := h.climbsFar b hor hb he
  exact hclimbs.climbAs

/-! ### One operand -/

/-- An operand with the operators before it is read back at its own level and at all weaker
ones. -/
theorem UnaryAs.operandAs (h : UnaryAs t e (e.pieces t)) (hunary : e.StandsUnary)
    (hextends : e.StandsAt .member → ExtendsAs t e (e.pieces t))
    (hmember : e.StandsAt .bareNew → MemberAs t e (e.pieces t)) : OperandAs t e where
  extendsAs := hextends
  memberAs := hmember
  unaryAs _ := h
  climbsFar b _ hb _ := by
    refine ⟨.unary, fun k op hk _ => ?_, h.climbsAs hb hunary⟩
    exact Nat.lt_of_le_of_lt (rightBound_of_infixOp? hk).2.2.2.2.1 (by decide)
  assignsAs := by
    refine .ofClimb (h.climbsAs (by decide) hunary).climbAs ?_
    cases ho : e.isArrow with
    | true => exact Nat.le_of_eq (Expr.precedence_of_isArrow ho).symm
    | false => exact Nat.le_trans (by decide) (hunary ho).1

/-- So is a value from which reading goes on. -/
theorem ExtendsAs.operandAs (h : ExtendsAs t e (e.pieces t)) : OperandAs t e := by
  have hstep : e.StandsAt .step := fun ho => Nat.le_trans (by decide) (h.binds ho)
  exact h.memberAs.stepAs.unaryAs.operandAs hstep.standsUnary (fun _ => h) fun _ => h.memberAs

theorem PrimaryAs.operandAs (h : PrimaryAs t e (e.pieces t))
    (hbinds : e.isArrow = false → .atom ≤ e.precedence) : OperandAs t e :=
  (h.extendsAs hbinds).operandAs

/-- A bare `new` may stand where a member does, but nothing goes on from it. -/
theorem OperandAs.newBare {n : String} {P : Tape} (h : PathAs t n e P)
    (hpath : e.isSymbolPath = true) (hpieces : e.pieces t = .name n :: P) :
    OperandAs t (.unary .new e) := by
  have hmember : MemberAs t (.unary .new e) ((Expr.unary .new e).pieces t) := by
    rw [Expr.pieces, hpieces]
    exact .newBare h hpath
  have hbounds : Precedence.step ≤ UnaryOp.new.precedence ∧
      UnaryOp.new.precedence < Precedence.member := by decide
  have hstep : (Expr.unary .new e).StandsAt .step := fun _ => hbounds.1
  exact hmember.stepAs.unaryAs.operandAs hstep.standsUnary
    (fun hb => absurd hb (Expr.not_standsAt rfl hbounds.2)) fun _ => hmember

/-- An operator after an operand that binds more strongly. -/
theorem OperandAs.step (h : OperandAs t e) (hbinds : .step + 1 ≤ e.precedence) (op : StepOp) :
    OperandAs t (.step op e) := by
  have ho := Expr.isArrow_of_or_le (Nat.le_trans (by decide) hbinds)
  have hop : stepOp? op.kind = some op := by cases op <;> rfl
  have hbounds : Precedence.step < Precedence.member ∧ Precedence.step < Precedence.bareNew := by
    decide
  have hstep : (Expr.step op e).StandsAt .step := fun _ => Nat.le_refl _
  exact (StepAs.step (h.memberAs fun _ => hbinds) ho hbinds hop).unaryAs.operandAs
    hstep.standsUnary (fun hb => absurd hb (Expr.not_standsAt rfl hbounds.1))
    fun hb => absurd hb (Expr.not_standsAt rfl hbounds.2)

/-- An operator other than `new` before an operand. -/
theorem OperandAs.unary (h : OperandAs t e) (hbinds : .unary ≤ e.precedence) {op : UnaryOp}
    (hnew : op ≠ .new) : OperandAs t (.unary op e) := by
  have ho := Expr.isArrow_of_or_le (Nat.le_trans (by decide) hbinds)
  have hop : unaryOp? op.kind = some op := by
    cases op <;> first | rfl | exact absurd rfl hnew
  have hopen : isOpenUnary (.unary op e) = true := by simpa [isOpenUnary] using hnew
  have hlt : (Expr.unary op e).precedence < .bareNew := by
    rw [Expr.precedence_of_isOpenUnary hopen]
    decide
  exact (UnaryAs.unary (h.unaryAs fun _ => hbinds) ho hbinds hop).operandAs
    (Expr.standsUnary_of_isOpenUnary hopen)
    (fun hb => absurd hb (Expr.not_standsAt rfl (Nat.lt_trans hlt (by decide))))
    fun hb => absurd hb (Expr.not_standsAt rfl hlt)

/-! ### Operators between operands -/

/-- An expression that binds more weakly than operators before an operand stands at none of the
stronger levels. -/
theorem OperandAs.ofWeak (ho : e.isArrow = false) (hweak : e.precedence < .unary)
    (hclimbs : ∀ b, .or ≤ b → e.StandsAt b → ClimbsFar t b e (e.pieces t))
    (h : AssignsAs t e (e.pieces t)) : OperandAs t e where
  extendsAs hb := absurd hb (Expr.not_standsAt ho (Nat.lt_trans hweak (by decide)))
  memberAs hb := absurd hb (Expr.not_standsAt ho (Nat.lt_trans hweak (by decide)))
  unaryAs hb := absurd hb (Expr.not_standsAt ho hweak)
  climbsFar b hor _ := hclimbs b hor
  assignsAs := h

theorem AssignsAs.operandAs (h : AssignsAs t e (e.pieces t)) (ho : e.isArrow = false)
    (hbinds : e.precedence = .assignment) : OperandAs t e := by
  refine .ofWeak ho (by rw [hbinds]; decide) (fun b hor hb => ?_) h
  have hlt : e.precedence < b := Nat.lt_of_lt_of_le (by rw [hbinds]; decide) hor
  exact absurd hb (Expr.not_standsAt ho hlt)

/-- Operands that bind as strongly as `BinaryOp.required` asks are read back with the operator. -/
theorem OperandAs.join {k : TokenKind} {op : BinaryOp} {l r : Expr} (hk : infixOp? k = some op)
    (hl : OperandAs t l) (hlb : op.required.1 ≤ l.precedence) (hr : OperandAs t r)
    (hrb : op.required.2 ≤ r.precedence) : OperandAs t (.binary op l r) := by
  obtain ⟨hle, -, hright, hleft, hexp, -⟩ := rightBound_of_infixOp? hk
  obtain ⟨hor, hbound⟩ := precedence_of_infixOp? hk
  rw [hright] at hrb
  have hstrong : op.precedence ≤ op.required.1 := by
    by_cases hop : op = .exp
    · subst hop
      decide
    · exact Nat.le_of_eq (hleft hop).symm
  -- what a power sign requires on its left excludes an operator before the operand
  have hopen : ¬(op = .exp ∧ isOpenUnary l = true) := by
    rintro ⟨rfl, hopen⟩
    rw [Expr.precedence_of_isOpenUnary hopen] at hlb
    exact absurd hlb (by decide)
  have hlo := Expr.isArrow_of_or_le (Nat.le_trans hor (Nat.le_trans hstrong hlb))
  have hro := Expr.isArrow_of_or_le (Nat.le_trans hor (Nat.le_trans hle hrb))
  have hclimbs (b : Precedence) (hb : .or ≤ b) (hbop : b ≤ op.precedence) :
      ClimbsAs t b (rightBound op) (.binary op l r) ((Expr.binary op l r).pieces t) := by
    have hunary : b ≤ .unary := Nat.le_trans hbop (Nat.le_trans hexp (by decide))
    obtain ⟨c, hc, hclimbs⟩ := hl.climbsFar b hb hunary
      fun _ => Nat.le_trans hbop (Nat.le_trans hstrong hlb)
    have hrc : ClimbAs t (rightBound op) r (r.pieces t) :=
      hr.climbAs (Nat.le_trans hor hle) (Nat.le_trans hbound (by decide)) fun _ => hrb
    rw [Expr.pieces_binary (ne_new_of_infixOp? hk) (ne_dot_of_infixOp? hk), kind_of_infixOp? hk]
    exact hclimbs.more hk hbop (hc k op hk hlb) hlo hopen hrc hro hrb
  refine .ofWeak rfl (Nat.lt_of_le_of_lt hexp (by decide)) (fun b hb hbop => ?_) ?_
  · exact ⟨rightBound op, fun k' op' hk' => (lt_rightBound_iff hk hk').2,
      hclimbs b hb (hbop rfl)⟩
  · exact .ofClimb (hclimbs .or (Nat.le_refl _) hor).climbAs (Nat.le_trans (by decide) hor)

/-- An assignment to an operand that binds more strongly than it. -/
theorem OperandAs.assign {op : BinaryOp} {l r : Expr} (hop : op.precedence = .assignment)
    (hl : OperandAs t l) (hlb : .or ≤ l.precedence) (hr : OperandAs t r) :
    OperandAs t (.binary op l r) := by
  have hleft := hl.climbAs (Nat.le_refl _) (by decide) fun _ => hlb
  refine AssignsAs.operandAs ?_ rfl hop
  rw [Expr.pieces_binary (ne_new_of_assignment hop) (ne_dot_of_assignment hop),
    kind_of_assignment hop]
  exact .assign hleft (Expr.isArrow_of_or_le hlb) hlb hr.assignsAs hop

/-- Operands that bind as strongly as `BinaryOp.required` asks are read back with the operator,
if it is one that operands on both sides are read for. -/
theorem OperandAs.binary {op : BinaryOp} {l r : Expr} (hcomma : op ≠ .comma) (hnew : op ≠ .new)
    (hdot : op ≠ .dot) (hl : OperandAs t l) (hlb : op.required.1 ≤ l.precedence)
    (hr : OperandAs t r) (hrb : op.required.2 ≤ r.precedence) : OperandAs t (.binary op l r) := by
  by_cases hop : op.precedence = .assignment
  · have hor : op.required.1 = .or := by
      cases op <;> first | rfl | exact absurd hop (by decide)
    exact .assign hop hl (hor ▸ hlb) hr
  · have hinfix : infixOp? op.kind = some op := by
      cases op <;> first | rfl | contradiction
    exact .join hinfix hl hlb hr hrb

theorem OperandAs.ternary {c y n : Expr} (hc : OperandAs t c) (hcb : .ternary + 1 ≤ c.precedence)
    (hy : OperandAs t y) (hn : OperandAs t n) : OperandAs t (.ternary c y n) := by
  have htest := hc.climbAs (Nat.le_refl _) (by decide) fun _ => hcb
  exact (AssignsAs.ternary htest (Expr.isArrow_of_or_le hcb) hcb hy.assignsAs
    hn.assignsAs).operandAs rfl rfl

/-- Parentheses are read back where `Expr.fit` adds them. -/
theorem OperandAs.fit (h : OperandAs t e) (required : Precedence) :
    OperandAs t (e.fit required) := by
  unfold Expr.fit
  split
  · exact (PrimaryAs.grouping h.assignsAs).operandAs fun _ => Nat.le_refl _
  · exact h

/-- What is put before a point, an index or arguments, fitted as a member. -/
theorem OperandAs.calleeAs (h : OperandAs t e) :
    ExtendsAs t (e.fit .member) ((e.fit .member).pieces t) ∧ (e.fit .member).isArrow = false :=
  ⟨(h.fit _).extendsAs fun _ => Expr.le_precedence_fit (by decide) e,
    Expr.isArrow_fit (by decide) (by decide) e⟩

end Levels

/-! ## Reading back -/

section ReadBack

variable {t : Dialect}

/-- An expression is printed as its `pieces`, and read back in its `Place`. -/
def Expr.ReadsBackAt (t : Dialect) (e : Expr) : Place → Prop
  | .sequence => SequencesAs t e (e.pieces t)
  | .operand => OperandAs t e
  | .arguments => ∀ es trailingComma, e = .list es trailingComma →
    (es = [] → trailingComma = false) ∧ List.Forall₂ (AssignsAs t) es (Expr.piecesOf t es)

/-- An operand that is no list is read back in every place. -/
theorem OperandAs.readsBackAt {e : Expr} (h : OperandAs t e) (hlist : e.isList = false)
    (place : Place) : e.ReadsBackAt t place := by
  cases place with
  | sequence => exact h.assignsAs.sequencesAs
  | operand => exact h
  | arguments =>
    rintro es comma rfl
    cases hlist

/-- A key is the token that `Key.ofToken?` makes it from. -/
theorem Key.WellBuilt.token {key : Key} (h : key.WellBuilt t) :
    Key.ofToken? key.text key.kind = some key ∧
      (Doc.text key.text).Cuts t Boundary [.token key.kind key.text] := by
  have htoken : Key.ofToken? key.text key.kind = some key := by
    cases key with
    | symbol name => rfl
    | string value text =>
      have hreads := Literal.WellBuilt.reads h []
      cases hreads with
      | string _ => rfl
  exact ⟨htoken, cuts_key htoken h.sound.2 h.sound.1⟩

/-- A path needs no parentheses, so `Expr.regroup` keeps it. -/
theorem Expr.regroup_of_isSymbolPath {s : Surface} : ∀ {e : Expr}, e.isSymbolPath = true →
    (e.regroup s).fit .member = e
  | .symbol name, _ => rfl
  | .binary .dot left right, h => by
    have hleft : left.isSymbolPath = true := (Bool.and_eq_true_iff.1 h).1
    rw [Expr.regroup, Expr.regroup_of_isSymbolPath hleft]
    rfl

/-- A path is read back as one, from its first name on. -/
theorem Expr.exists_pathAs : ∀ {e : Expr}, e.isSymbolPath = true → e.WellBuilt t .operand →
    ∃ n P, e.pieces t = .name n :: P ∧ PathAs t n e P
  | .symbol name, _, h => ⟨name, [], rfl, .symbol h⟩
  | .binary .dot left right, hpath, h => by
    have hleft : left.isSymbolPath = true := (Bool.and_eq_true_iff.1 hpath).1
    obtain ⟨-, -, -, hbuilt, hright⟩ := h
    obtain ⟨name, rfl, hname⟩ := hright
    obtain ⟨n, P, hP, has⟩ := Expr.exists_pathAs hleft hbuilt
    refine ⟨n, _, ?_, has.dot hname⟩
    rw [Expr.pieces, hP]
    rfl

theorem Expr.length_regroups (s : Surface) (es : List Expr) :
    (Expr.regroups s es).length = es.length := by
  induction es with
  | nil => rfl
  | cons e es ih => simp [Expr.regroups, ih]

/-- A list stays a list. -/
theorem Expr.exists_list_regroup (s : Surface) {e : Expr} (h : e.isList = true) :
    ∃ es trailingComma, e.regroup s = .list es trailingComma := by
  cases e with
  | list es trailingComma => exact ⟨_, _, rfl⟩
  | _ => cases h

mutual

/-- **The regrouped tree is read back**, whatever its operators and operands are. -/
theorem Expr.readsBack_regroup : ∀ (e : Expr) {place : Place}, e.WellBuilt t place →
    (e.regroup t.surface).ReadsBackAt t place
  | .symbol name, place, h =>
    ((PrimaryAs.symbol h).operandAs fun _ => Nat.le_refl _).readsBackAt rfl place
  | .literal value, place, h =>
    ((PrimaryAs.literal (Literal.WellBuilt.genuine h) (Literal.WellBuilt.reads h)).operandAs
      fun _ => Nat.le_refl _).readsBackAt rfl place
  | .grouping inner, place, h => by
    have ih : OperandAs t _ := inner.readsBack_regroup h
    exact ((PrimaryAs.grouping ih.assignsAs).operandAs fun _ => Nat.le_refl _).readsBackAt rfl place
  | .unary op operand, place, h => by
    refine OperandAs.readsBackAt ?_ rfl place
    by_cases hnew : op = .new
    · subst hnew
      have hpath := Expr.isSymbolPath_of_unary? h.1
      -- what follows `new` is a path, which is never regrouped
      obtain ⟨n, P, hP, has⟩ := Expr.exists_pathAs hpath h.2
      rw [Expr.regroup, UnaryOp.required, Expr.regroup_of_isSymbolPath hpath]
      exact .newBare has hpath hP
    · have ih : OperandAs t _ := operand.readsBack_regroup h.2
      have hunary : op.required = .unary := by
        cases op <;> first | rfl | exact absurd rfl hnew
      rw [Expr.regroup, hunary]
      exact (ih.fit _).unary (Expr.le_precedence_fit (by decide) _) hnew
  | .step op operand, place, h => by
    have ih : OperandAs t _ := operand.readsBack_regroup h
    exact ((ih.fit _).step (Expr.le_precedence_fit (by decide) _) op).readsBackAt rfl place
  | .binary op left right, place, h => by
    obtain ⟨hchecked, -, hcomma, hleft, hright⟩ := h
    have ihl := left.readsBack_regroup hleft
    cases op with
    | comma =>
      obtain rfl := hcomma rfl
      have ihr : OperandAs t _ := right.readsBack_regroup hright
      -- commas join to the left, so the left side may hold commas of its own
      have hfit : (left.regroup t.surface).fit BinaryOp.comma.required.1 = left.regroup t.surface :=
        Expr.fit_of_le (Expr.comma_le_precedence _)
      rw [Expr.regroup, hfit]
      · exact SequencesAs.comma ihl (ihr.fit _).assignsAs
      all_goals nofun
    | new =>
      obtain ⟨hpath, hlist⟩ := (Expr.checked_of_binary? hchecked).1 rfl
      obtain ⟨es, comma, hes⟩ := Expr.exists_list_regroup t.surface hlist
      obtain ⟨hcomma, hall⟩ := right.readsBack_regroup hright es comma hes
      obtain ⟨n, P, hP, has⟩ := Expr.exists_pathAs hpath hleft
      rw [Expr.regroup, Expr.regroup_of_isSymbolPath hpath, hes]
      refine (ExtendsAs.operandAs ?_).readsBackAt rfl place
      rw [Expr.pieces, hP]
      exact .newCall has hpath hall hcomma
    | dot =>
      obtain ⟨name, rfl, hname⟩ := hright
      obtain ⟨hcallee, ho⟩ := OperandAs.calleeAs ihl
      exact (hcallee.dot ho hname).operandAs.readsBackAt rfl place
    | _ =>
      have ihr : OperandAs t _ := right.readsBack_regroup hright
      refine OperandAs.readsBackAt ?_ rfl place
      exact .binary nofun nofun nofun (OperandAs.fit ihl _)
        (Expr.le_precedence_fit (BinaryOp.required_le_atom _).1 _) (ihr.fit _)
        (Expr.le_precedence_fit (BinaryOp.required_le_atom _).2 _)
  | .ternary test yes no, place, h => by
    have ihc : OperandAs t _ := test.readsBack_regroup h.1
    have ihy : OperandAs t _ := yes.readsBack_regroup h.2.1
    have ihn : OperandAs t _ := no.readsBack_regroup h.2.2
    exact ((ihc.fit _).ternary (Expr.le_precedence_fit (by decide) _) (ihy.fit _)
      (ihn.fit _)).readsBackAt rfl place
  | .call callee arguments, place, h => by
    obtain ⟨hchecked, hcallee, hargs⟩ := h
    have ihc : OperandAs t _ := callee.readsBack_regroup hcallee
    have iha := arguments.readsBack_regroup hargs
    obtain ⟨hextends, ho⟩ := ihc.calleeAs
    obtain ⟨es, comma, hes⟩ := Expr.exists_list_regroup t.surface (Expr.isList_of_call? hchecked)
    obtain ⟨hcomma, hall⟩ := iha es comma hes
    rw [Expr.regroup, hes]
    exact (hextends.call ho hall hcomma).operandAs.readsBackAt rfl place
  | .index target position, place, h => by
    have iht : OperandAs t _ := target.readsBack_regroup h.1
    have ihp : SequencesAs t _ _ := position.readsBack_regroup h.2
    obtain ⟨htarget, ho⟩ := iht.calleeAs
    exact (htarget.index ho ihp.exprAs).operandAs.readsBackAt rfl place
  | .object es, place, h =>
    have hobject := PrimaryAs.object (Entry.readsBack_regroups es h)
    (hobject.operandAs fun _ => Nat.le_refl _).readsBackAt rfl place
  | .list es comma, place, h => by
    obtain ⟨hlong, hcomma, hes⟩ := h
    have ih := Expr.readsBack_regroups es hes
    have hlength := Expr.length_regroups t.surface es
    -- as an operand a list must not look like one expression in parentheses
    have hlist (hplace : place ≠ .arguments) :
        OperandAs t (.list (Expr.regroups t.surface es) comma) := by
      refine (PrimaryAs.list ih ?_ ?_).operandAs fun _ => Nat.le_refl _
      · intro hnil
        rw [hnil] at hlength
        rcases hlong hplace with htwo | htrails
        · exact absurd htwo (by simp [← hlength])
        · exact hcomma htrails (List.eq_nil_of_length_eq_zero hlength.symm)
      · intro e hone
        rw [hone] at hlength
        exact (hlong hplace).resolve_left (by simp [← hlength])
    cases place with
    | arguments =>
      rintro _ _ ⟨⟩
      refine ⟨fun hnil => Bool.eq_false_iff.2 fun htrails => hcomma htrails ?_, ih⟩
      rw [hnil] at hlength
      exact List.eq_nil_of_length_eq_zero hlength.symm
    | sequence => exact (hlist nofun).assignsAs.sequencesAs
    | operand => exact hlist nofun
  | .array es, place, h =>
    have harray := PrimaryAs.array (Expr.readsBack_regroups es h)
    (harray.operandAs fun _ => Nat.le_refl _).readsBackAt rfl place
  | .arrow params body, place, h => by
    refine OperandAs.readsBackAt ?_ rfl place
    have ih : OperandAs t _ := body.readsBack_regroup h.2
    rw [Expr.regroup]
    split
    · have hbody := (PrimaryAs.grouping ih.assignsAs).operandAs fun _ => Nat.le_refl _
      exact (PrimaryAs.arrow h.1 hbody.assignsAs).operandAs nofun
    · exact (PrimaryAs.arrow h.1 (ih.fit _).assignsAs).operandAs nofun
  | .function .., _, h | .arrowBlock .., _, h => h.elim

/-- So are several expressions, each fitted to its place. -/
theorem Expr.readsBack_regroups : ∀ es : List Expr, Expr.AllWellBuilt t es →
    List.Forall₂ (AssignsAs t) (Expr.regroups t.surface es)
      (Expr.piecesOf t (Expr.regroups t.surface es))
  | [], _ => .nil
  | e :: es, h => by
    have ih : OperandAs t _ := e.readsBack_regroup h.1
    exact .cons (ih.fit _).assignsAs (Expr.readsBack_regroups es h.2)

/-- So are the entries of an object. -/
theorem Entry.readsBack_regroups : ∀ es : List Entry, Entry.AllWellBuilt t es →
    List.Forall₂ (EntersAs t) (Entry.regroups t.surface es)
      (Entry.piecesOf t (Entry.regroups t.surface es))
  | [], _ => .nil
  | .shorthand key :: es, h =>
    .cons (.shorthand h.1.token.1 h.1.token.2) (Entry.readsBack_regroups es h.2)
  | .pair key value :: es, h => by
    have ih : OperandAs t _ := value.readsBack_regroup h.2.1
    exact .cons (.pair h.1.token.1 h.1.token.2 (ih.fit _).assignsAs)
      (Entry.readsBack_regroups es h.2.2)

end

end ReadBack

/-! ## Printing and reading -/

/-- **An expression that is put together by hand is read back**: it is printed, and what is read
from its text is the same expression, up to parentheses around single expressions. -/
theorem parseExpr_printExpr_of_wellBuilt {d : Dialect} {e : Expr} (h : e.WellBuilt d .sequence) :
    ∃ text v, printExpr d e = .ok text ∧ parseExpr d text = .ok v ∧ v.ungroup = e.ungroup := by
  have hback : SequencesAs d _ _ := e.readsBack_regroup h
  have hsound := e.sound_regroup h
  obtain ⟨text, hprinted⟩ := hback.exprAs.exists_exprPrintedAs fun n hn => (hsound n hn).toParsed
  have hdivides : ¬Divides (e.regroup d.surface).nodes := by
    rintro ⟨l, r, hn⟩
    exact (hsound _ hn).notDivide l r rfl
  have hprint : printExpr d e = .ok text := by
    rw [← hprinted.printed, printExpr, printExpr, Emitter.writeExpr, Emitter.writeExpr,
      Expr.fitted_comma, Expr.fitted_comma, Expr.doc_regroup]
  exact ⟨text, _, hprint, hprinted.parseExpr (Expr.not_spoiltIn hdivides d text),
    e.ungroup_regroup d.surface⟩

/-- Signs that would run together are kept apart, and an operand that binds too weakly, a value that
would begin a block and a bare `new` before a point are put in parentheses. -/
theorem parseExpr_printExpr_of_wellBuilt_power :
    ∃ e text v, e.WellBuilt .brace .sequence ∧
      text = "(- -a) ** ((x) => (\x7b \x7d[x])), (new A).if[(a = 1) ? (b, c) : d, e]" ∧
      printExpr .brace e = .ok text ∧ parseExpr .brace text = .ok v ∧ v.ungroup = e.ungroup := by
  have hnames : ∀ n ∈ ["a", "b", "c", "d", "e", "x", "A"], IsName .brace n := by decide
  have hword : IsWord "if" := by decide
  have hone : (Literal.fixnum 1 "1").WellBuilt .brace := by
    refine eq_ok_of_toOption ?_
    rw [parseExpr, Lexer.run, Lexer.tokens_ofText]
    decide +kernel
  have hbuilt : Expr.WellBuilt .brace (.binary .comma
      (.binary .exp (.unary .neg (.unary .neg (.symbol "a")))
        (.arrow ["x"] (.index (.object []) (.symbol "x"))))
      (.index (.binary .dot (.unary .new (.symbol "A")) (.symbol "if"))
        (.binary .comma
          (.ternary (.binary .assign (.symbol "a") (.literal (.fixnum 1 "1")))
            (.list [.symbol "b", .symbol "c"] false) (.symbol "d"))
          (.symbol "e")))) .sequence := by
    simp only [List.forall_mem_cons] at hnames
    simp [Expr.WellBuilt, Expr.AllWellBuilt, Entry.AllWellBuilt, BinaryOp.leftPlace, Expr.binary?,
      Expr.unary?, Expr.isSymbol, Expr.isSymbolPath, hnames, hone, hword]
  obtain ⟨text, v, hprint, hparse, hv⟩ := parseExpr_printExpr_of_wellBuilt hbuilt
  exact ⟨_, text, v, hbuilt, Except.ok.inj (hprint.symm.trans rfl), hprint, hparse, hv⟩

end Diglot

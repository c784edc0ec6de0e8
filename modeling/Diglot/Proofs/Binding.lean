import Diglot.Proofs.Derivation

/-!
# How strongly parsed expressions bind

Every place in a phrase asks for a strength, and what is read there binds at least as strongly. So
printing a parsed tree never has to add parentheses for the sake of an operator: those that are
needed are nodes of the tree already.

- `Reads.binds`: the strength of what a phrase means.
- `Reads.stops`: operators that bind strongly enough are not left behind.
-/

namespace Diglot

open Rules

/-- An arrow function binds as weakly as an assignment. -/
theorem Expr.precedence_of_isArrow {e : Expr} (h : e.isArrow = true) :
    e.precedence = .assignment := by
  cases e <;> first | rfl | cases h

/-- The operators that `infixOp?` reads bind from `Precedence.or` on, and their right operands
at most as strongly as a power. -/
theorem precedence_of_infixOp? {k : TokenKind} {op : BinaryOp} (h : infixOp? k = some op) :
    Precedence.or ≤ op.precedence ∧ rightBound op ≤ Precedence.exponent := by
  unfold infixOp? at h
  split at h <;> cases h <;> decide

/-- The `precedence` that what a phrase means has to have. An arrow function binds weakly and
may stand alone all the same, where nothing goes on from it. -/
def Phrase.Binds : (φ : Phrase) → φ.Out → Prop
  | .primary, e => e.isArrow = false → .atom ≤ e.precedence
  | .pathFrom l, e => .member ≤ l.precedence → .member ≤ e.precedence
  | .memberFrom l, e =>
    (l.isArrow = false → .member ≤ l.precedence) → e.isArrow = false → .member ≤ e.precedence
  | .member, e => e.isArrow = false → .bareNew ≤ e.precedence
  | .step, e => e.isArrow = false → .step ≤ e.precedence
  | .unary, e =>
    e.isArrow = false → .unary ≤ e.precedence ∧ (isOpenUnary e = false → .step ≤ e.precedence)
  | .climbFrom b l, e =>
    (l.isArrow = false → b ≤ l.precedence) → e.isArrow = false → b ≤ e.precedence
  | .climb b, e => b ≤ .unary → e.isArrow = false → b ≤ e.precedence
  | .assignment, e => .assignment ≤ e.precedence
  | _, _ => True

/-- What is read in a place binds as strongly as the place asks for, by `Phrase.Binds`. -/
theorem Reads.binds {d : Dialect} {φ : Phrase} {S S' : Tape} {a : φ.Out}
    (h : Reads d φ S a S') : φ.Binds a := by
  induction h with
  | symbol _ | boolean _ | fixnum _ _ | flonum _ | string _ | regexp _ | object _ _ _
  | array _ _ _ | grouping _ _ _ | list _ _ _ _ _ | functionNamed _ _ _ _ _ _
  | functionBare _ _ _ _ _ _ => exact fun _ => Nat.le_refl _
  | arrow _ _ _ _ _ _ | arrowBlock _ _ _ _ _ => exact nofun
  | pathEnd _ | memberEnd _ | climbEnd _ => exact id
  | pathMore _ _ _ _ ih => exact fun _ => ih (Nat.le_refl _)
  | memberCall _ _ _ _ ih | memberIndex _ _ _ _ _ _ ih | memberDot _ _ _ _ _ ih =>
    exact fun _ => ih fun _ => Nat.le_refl _
  | newBare _ _ _ _ _ => exact fun _ => Nat.le_refl _
  | newCall _ _ _ _ _ _ _ ih =>
    exact fun ho => Nat.le_trans (by decide) (ih (fun _ => Nat.le_refl _) ho)
  | member _ _ _ ih ihx =>
    exact fun ho => Nat.le_trans (by decide) (ihx (fun ho => Nat.le_trans (by decide) (ih ho)) ho)
  | stepNone _ _ ih => exact fun ho => Nat.le_trans (by decide) (ih ho)
  | stepSome _ _ _ _ _ => exact fun _ => Nat.le_refl _
  | unaryNone _ _ ih => exact fun ho => ⟨Nat.le_trans (by decide) (ih ho), fun _ => ih ho⟩
  | @unarySome _ _ _ _ op _ _ _ _ _ _ =>
    have hop : Precedence.unary ≤ op.precedence ∧
        ((op != .new) = false → Precedence.step ≤ op.precedence) := by
      cases op <;> decide
    exact fun _ => hop
  | climbMore _ _ hb _ _ _ _ _ _ ih => exact fun _ => ih fun _ => hb
  | climb _ _ ih ihx => exact fun hb => ihx fun ho => Nat.le_trans hb (ih ho).1
  -- an arrow function comes up to here unasked, and binds as strongly as an assignment does
  | @assignmentNone _ _ e _ _ _ ih =>
    cases ho : e.isArrow with
    | true => exact Nat.le_of_eq (Expr.precedence_of_isArrow ho).symm
    | false => exact Nat.le_trans (by decide) (ih (by decide) ho)
  | assignmentSome _ _ _ hop _ _ _ _ => exact Nat.le_of_eq hop.symm
  | ternary _ _ _ _ _ _ _ _ _ => exact Nat.le_refl _
  | _ => trivial

/-- A phrase that goes on past operators of some strength leaves none of them: `climb` and
`climbFrom` stop only before a weaker one. -/
def Phrase.Stops : Phrase → Tape → Prop
  | .climb b, S | .climbFrom b _, S => ∀ op, infixOp? S.kind = some op → op.precedence < b
  | _, _ => True

/-- What is read leaves no operator that it would have gone past. -/
theorem Reads.stops {d : Dialect} {φ : Phrase} {S S' : Tape} {a : φ.Out}
    (h : Reads d φ S a S') : φ.Stops S' := by
  induction h with
  | climbEnd h => exact h
  | climbMore _ _ _ _ _ _ _ _ _ ih => exact ih
  | climb _ _ _ ih => exact ih
  | _ => trivial

end Diglot

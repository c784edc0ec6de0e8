import Diglot.Grammar.Program

/-!
# Outcomes of parsers

What is known of a parser that is run on a reader: if it succeeds, then its result and the reader
after it have some property, and if it fails, then with a complaint about the source and never with
a defect of the tree. `Parser.Yields` says this, and there is one lemma for each step a parser can
take, so that a rule is taken apart without looking into the state it is run in.

- `Parser.Yields`: the outcome of a parser is either good or a complaint.
- `Parser.yields_bind` and its companions: the steps of a parser.
- `Rules.loopHeaderFrom`, `Rules.declarationAfter`: what two rules do after their first, optional
  word. They are the rules whose beginning branches, so that their remainder needs a name.
-/

namespace Diglot.Parser

variable {α β : Type} {r : Reader} {Q : α → Reader → Prop}

/-- Either the parser succeeds with a property, or it complains about the source. An error of
the tree, `exhausted` among them, is neither. -/
def Yields (x : Parser α) (r : Reader) (Q : α → Reader → Prop) : Prop :=
  match x.run r with
  | .ok (a, r') => Q a r'
  | .error e => ∃ s, e = .source s

/-- A parser that `Yields` something yields what follows from it. -/
theorem Yields.mono {x : Parser α} {Q' : α → Reader → Prop} (h : x.Yields r Q)
    (hQ : ∀ a r', Q a r' → Q' a r') : x.Yields r Q' := by
  unfold Yields at h ⊢
  cases hx : x.run r with
  | ok p =>
    rw [hx] at h
    exact hQ p.1 p.2 h
  | error e =>
    rw [hx] at h
    exact h

@[simp] theorem yields_pure (a : α) : Yields (pure a) r Q ↔ Q a r :=
  Iff.rfl

/-- A step and what follows it: the property of the first is that the second `Yields`. -/
@[simp] theorem yields_bind (x : Parser β) (f : β → Parser α) :
    Yields (x >>= f) r Q ↔ x.Yields r fun b r' => (f b).Yields r' Q := by
  unfold Yields
  simp only [StateT.run_bind]
  cases x.run r with
  | ok p => exact Iff.rfl
  | error e => exact Iff.rfl

@[simp] theorem yields_kind {Q : TokenKind → Reader → Prop} :
    Yields kind r Q ↔ Q r.current.kind r :=
  Iff.rfl

@[simp] theorem yields_current {Q : Token → Reader → Prop} :
    Yields current r Q ↔ Q r.current r :=
  Iff.rfl

/-- `is` gives the truth about the token at hand and moves nothing. -/
@[simp] theorem yields_is {k : TokenKind} {Q : Bool → Reader → Prop} :
    Yields (is k) r Q ↔
      (r.current.kind = k → Q true r) ∧ (r.current.kind ≠ k → Q false r) := by
  show Q (r.current.kind == k) r ↔ _
  by_cases h : r.current.kind = k
  · simp [h]
  · simp [h, beq_false_of_ne h]

/-- `advance` gives the token at hand and moves to the `next` reader. -/
@[simp] theorem yields_advance {Q : Token → Reader → Prop} :
    Yields advance r Q ↔ Q r.current r.next :=
  Iff.rfl

/-- A complaint is a good outcome, whatever the property. -/
@[simp] theorem yields_complain (t : Token) (c : Complaint) : Yields (complain t c) r Q :=
  ⟨_, rfl⟩

@[simp] theorem yields_unexpected (what : Expectation) : Yields (unexpected what) r Q :=
  ⟨_, rfl⟩

/-- `take` moves on only past the token that it is asked for. -/
@[simp] theorem yields_take {k : TokenKind} {Q : Bool → Reader → Prop} :
    Yields (take k) r Q ↔
      (r.current.kind = k → Q true r.next) ∧ (r.current.kind ≠ k → Q false r) := by
  unfold Yields
  by_cases h : r.current.kind = k
  · simp [run_take_of_eq h, h]
  · simp [run_take_of_ne h, h]

/-- `consume` complains about any other token, so only the one it is asked for matters. -/
@[simp] theorem yields_consume {k : TokenKind} {what : Expectation} {Q : Token → Reader → Prop} :
    Yields (consume k what) r Q ↔ (r.current.kind = k → Q r.current r.next) := by
  unfold Yields
  by_cases h : r.current.kind = k
  · simp [run_consume_of_eq h, h]
  · simp [run_consume_of_ne h, h]

/-- `takeComments` gives the comments that wait and leaves none. -/
@[simp] theorem yields_takeComments {Q : List Comment → Reader → Prop} :
    Yields takeComments r Q ↔ Q r.pending { r with pending := [] } :=
  Iff.rfl

/-- Checked construction that succeeds is no more than its result. -/
@[simp] theorem yields_build_ok (a : α) : Yields (build (.ok a)) r Q ↔ Q a r :=
  Iff.rfl

/-- A branch on a truth value goes the way it says. -/
@[simp] theorem yields_cond {b : Bool} {x y : Parser α} :
    Yields (if b = true then x else y) r Q ↔ cond b (x.Yields r Q) (y.Yields r Q) := by
  cases b <;> exact Iff.rfl

theorem yields_ite {c : Prop} [Decidable c] {x y : Parser α} :
    Yields (if c then x else y) r Q ↔ (c → x.Yields r Q) ∧ (¬c → y.Yields r Q) := by
  by_cases h : c <;> simp [h]

end Diglot.Parser

/-! ## Rules after an optional word -/

namespace Diglot.Rules

open Diglot.Parser

variable (d : Dialect) (g : Grammar)

/-- The header of a loop over a collection, after the word that declares its names: what
`loopHeader` does in both of its branches. -/
def loopHeaderFrom (keyword : Option VarKeyword) :
    Parser (Option VarKeyword × List String × Bool × Expr) := do
  let bracketed ← take (.punct .lbrack)
  let names ← loopNames g bracketed
  let _ ← consume (.keyword .ofKw) (.token (.keyword .ofKw))
  let collection ← expr d g
  return (keyword, names, bracketed, collection)

/-- `loopHeader` is a choice between two ways into `loopHeaderFrom`. -/
theorem loopHeader_eq : loopHeader d g = (do
    let k ← kind
    if (varKeyword? k).isSome then
      let _ ← advance
      loopHeaderFrom d g (varKeyword? k)
    else
      loopHeaderFrom d g (varKeyword? k)) :=
  rfl

/-- A declaration, after the word that exports it: what `declaration?` does in both of its
branches. -/
def declarationAfter (exportWord : Option Token) : Parser (Option Declaration) := do
  let isAsync ← take (.keyword .asyncKw)
  if isAsync && (← kind) != d.functionWord then
    unexpected (.tokenAfter d.functionWord "async")
  else
    declarationFrom d g exportWord isAsync

/-- `declaration?` is a choice between two ways into `declarationAfter`. -/
theorem declaration?_eq : declaration? d g = (do
    if ← is (.keyword .exportKw) then
      let word ← advance
      declarationAfter d g (some word)
    else
      declarationAfter d g none) :=
  rfl

end Diglot.Rules

import Diglot.Tree.Basic

/-!
# Equality of trees

Two trees are compared node by node, with their literals, spellings and comments. The comparison
decides equality (`Expr.same_iff` and its companions), so that programs have decidable equality.
-/

namespace Diglot

/-! ## The comparison -/

mutual

/-- Whether two expressions are the same. Their literals have to agree in value and in spelling. -/
def Expr.same : Expr → Expr → Bool
  | .symbol a, .symbol b => a == b
  | .literal a, .literal b => a == b
  | .grouping a, .grouping b => a.same b
  | .unary o a, .unary p b => o == p && a.same b
  | .step o a, .step p b => o == p && a.same b
  | .binary o a c, .binary p b d => o == p && a.same b && c.same d
  | .ternary t a c, .ternary u b d => t.same u && a.same b && c.same d
  | .call a c, .call b d => a.same b && c.same d
  | .index a c, .index b d => a.same b && c.same d
  | .object a, .object b => Entry.sameAll a b
  | .list a s, .list b t => Expr.sameAll a b && s == t
  | .array a, .array b => Expr.sameAll a b
  | .function m p a, .function n q b => m == n && p == q && Declaration.sameAll a b
  | .arrow p a, .arrow q b => p == q && a.same b
  | .arrowBlock p a, .arrowBlock q b => p == q && Declaration.sameAll a b
  | _, _ => false

/-- Whether two lists of expressions are the same: of one length, and `Expr.same` at each place. -/
def Expr.sameAll : List Expr → List Expr → Bool
  | [], [] => true
  | a :: as, b :: bs => a.same b && Expr.sameAll as bs
  | _, _ => false

/-- Whether two object entries are the same, in key and in value (`Expr.same`). -/
def Entry.same : Entry → Entry → Bool
  | .shorthand j, .shorthand k => j == k
  | .pair j a, .pair k b => j == k && a.same b
  | _, _ => false

/-- Whether two lists of object entries are the same: `Entry.same` at each place. -/
def Entry.sameAll : List Entry → List Entry → Bool
  | [], [] => true
  | a :: as, b :: bs => a.same b && Entry.sameAll as bs
  | _, _ => false

/-- Whether two statements are the same. A branch or value that may be missing is compared by
cases, so that the recursion stays on subtrees. -/
def Statement.same : Statement → Statement → Bool
  | .ifThen t a none, .ifThen u b none => t.same u && Declaration.sameAll a b
  | .ifThen t a (some c), .ifThen u b (some d) =>
    t.same u && Declaration.sameAll a b && c.same d
  | .whileLoop t a, .whileLoop u b => t.same u && Declaration.sameAll a b
  | .forLoop k m c a s, .forLoop l n d b t =>
    k == l && m == n && c.same d && Declaration.sameAll a b && s == t
  | .throw a, .throw b => a.same b
  | .ret none, .ret none => true
  | .ret (some a), .ret (some b) => a.same b
  | .expr a, .expr b => a.same b
  | .block a, .block b => Declaration.sameAll a b
  | _, _ => false

/-- Whether two declarations are the same: also in being exported and in being asynchronous. -/
def Declaration.same : Declaration → Declaration → Bool
  | .function m p a s t, .function n q b u v =>
    m == n && p == q && Declaration.sameAll a b && s == u && t == v
  | .var k m none s, .var l n none t => k == l && m == n && s == t
  | .var k m (some a) s, .var l n (some b) t => k == l && m == n && a.same b && s == t
  | .vars k m a s, .vars l n b t => k == l && m == n && a.same b && s == t
  | .statement a, .statement b => a.same b
  | .comments a, .comments b => a == b
  | _, _ => false

/-- Whether two blocks are the same: `Declaration.same` at each place. -/
def Declaration.sameAll : List Declaration → List Declaration → Bool
  | [], [] => true
  | a :: as, b :: bs => a.same b && Declaration.sameAll as bs
  | _, _ => false

end

/-! ## It decides equality -/

mutual

/-- `Expr.same` decides equality of expressions. -/
theorem Expr.same_iff : ∀ a b : Expr, a.same b = true ↔ a = b
  | .symbol _, b => by cases b <;> simp [Expr.same]
  | .literal _, b => by cases b <;> simp [Expr.same]
  | .grouping a, b => by cases b <;> simp [Expr.same, Expr.same_iff a]
  | .unary _ a, b => by cases b <;> simp [Expr.same, Expr.same_iff a]
  | .step _ a, b => by cases b <;> simp [Expr.same, Expr.same_iff a]
  | .binary _ a c, b => by
    cases b <;> simp [Expr.same, Expr.same_iff a, Expr.same_iff c, and_assoc]
  | .ternary t a c, b => by
    cases b <;> simp [Expr.same, Expr.same_iff t, Expr.same_iff a, Expr.same_iff c, and_assoc]
  | .call a c, b => by cases b <;> simp [Expr.same, Expr.same_iff a, Expr.same_iff c]
  | .index a c, b => by cases b <;> simp [Expr.same, Expr.same_iff a, Expr.same_iff c]
  | .object a, b => by cases b <;> simp [Expr.same, Entry.sameAll_iff a]
  | .list a _, b => by cases b <;> simp [Expr.same, Expr.sameAll_iff a]
  | .array a, b => by cases b <;> simp [Expr.same, Expr.sameAll_iff a]
  | .function _ _ a, b => by cases b <;> simp [Expr.same, Declaration.sameAll_iff a, and_assoc]
  | .arrow _ a, b => by cases b <;> simp [Expr.same, Expr.same_iff a]
  | .arrowBlock _ a, b => by cases b <;> simp [Expr.same, Declaration.sameAll_iff a]

/-- `Expr.sameAll` decides equality of lists of expressions. -/
theorem Expr.sameAll_iff : ∀ a b : List Expr, Expr.sameAll a b = true ↔ a = b
  | [], b => by cases b <;> simp [Expr.sameAll]
  | a :: as, b => by cases b <;> simp [Expr.sameAll, Expr.same_iff a, Expr.sameAll_iff as]

/-- `Entry.same` decides equality of object entries. -/
theorem Entry.same_iff : ∀ a b : Entry, a.same b = true ↔ a = b
  | .shorthand _, b => by cases b <;> simp [Entry.same]
  | .pair _ a, b => by cases b <;> simp [Entry.same, Expr.same_iff a]

theorem Entry.sameAll_iff : ∀ a b : List Entry, Entry.sameAll a b = true ↔ a = b
  | [], b => by cases b <;> simp [Entry.sameAll]
  | a :: as, b => by cases b <;> simp [Entry.sameAll, Entry.same_iff a, Entry.sameAll_iff as]

/-- `Statement.same` decides equality of statements. -/
theorem Statement.same_iff : ∀ a b : Statement, a.same b = true ↔ a = b
  | .ifThen t a none, b => by
    rcases b with ⟨_, _, _ | _⟩ | _ | _ | _ | _ | _ | _ <;>
      simp [Statement.same, Expr.same_iff t, Declaration.sameAll_iff a]
  | .ifThen t a (some c), b => by
    rcases b with ⟨_, _, _ | _⟩ | _ | _ | _ | _ | _ | _ <;>
      simp [Statement.same, Expr.same_iff t, Declaration.sameAll_iff a, Statement.same_iff c,
        and_assoc]
  | .whileLoop t a, b => by
    cases b <;> simp [Statement.same, Expr.same_iff t, Declaration.sameAll_iff a]
  | .forLoop _ _ c a _, b => by
    cases b <;> simp [Statement.same, Expr.same_iff c, Declaration.sameAll_iff a, and_assoc]
  | .throw a, b => by cases b <;> simp [Statement.same, Expr.same_iff a]
  | .ret none, b => by
    rcases b with _ | _ | _ | _ | (_ | _) | _ | _ <;> simp [Statement.same]
  | .ret (some a), b => by
    rcases b with _ | _ | _ | _ | (_ | _) | _ | _ <;> simp [Statement.same, Expr.same_iff a]
  | .expr a, b => by cases b <;> simp [Statement.same, Expr.same_iff a]
  | .block a, b => by cases b <;> simp [Statement.same, Declaration.sameAll_iff a]

/-- `Declaration.same` decides equality of declarations. -/
theorem Declaration.same_iff : ∀ a b : Declaration, a.same b = true ↔ a = b
  | .function _ _ a _ _, b => by
    cases b <;> simp [Declaration.same, Declaration.sameAll_iff a, and_assoc]
  | .var _ _ none _, b => by
    rcases b with _ | ⟨_, _, _ | _, _⟩ | _ | _ | _ <;> simp [Declaration.same, and_assoc]
  | .var _ _ (some a) _, b => by
    rcases b with _ | ⟨_, _, _ | _, _⟩ | _ | _ | _ <;>
      simp [Declaration.same, Expr.same_iff a, and_assoc]
  | .vars _ _ a _, b => by cases b <;> simp [Declaration.same, Expr.same_iff a, and_assoc]
  | .statement a, b => by cases b <;> simp [Declaration.same, Statement.same_iff a]
  | .comments _, b => by cases b <;> simp [Declaration.same]

/-- `Declaration.sameAll` decides equality of blocks. -/
theorem Declaration.sameAll_iff :
    ∀ a b : List Declaration, Declaration.sameAll a b = true ↔ a = b
  | [], b => by cases b <;> simp [Declaration.sameAll]
  | a :: as, b => by
    cases b <;> simp [Declaration.sameAll, Declaration.same_iff a, Declaration.sameAll_iff as]

end

instance : DecidableEq Expr := fun a b => decidable_of_iff _ (Expr.same_iff a b)

instance : DecidableEq Statement := fun a b => decidable_of_iff _ (Statement.same_iff a b)

instance : DecidableEq Declaration := fun a b => decidable_of_iff _ (Declaration.same_iff a b)

deriving instance DecidableEq for Program

end Diglot

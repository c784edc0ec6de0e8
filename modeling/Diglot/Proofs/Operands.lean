import Diglot.Proofs.Readback

/-!
# Operands read back

Values, and what may follow and precede them, as they are printed and read back. Reading goes on
from what has been read, so for a value that more may follow the statement is about the rest of the
reading: whatever goes on from the value on some tape is read from its pieces and that tape.

- `ValueAs`: the printed form of an expression is read back at one level of operators.
- `ExtendsAs`, `PathAs`: a value, a path, that reading goes on from.
- `ExtendsAs.call`, `ExtendsAs.index`, `ExtendsAs.dot`: one lemma for each thing that goes on.
-/

namespace Diglot

open Rules Lexeme

variable {t : Dialect}

/-- An expression is printed as some pieces, which `R` reads back before a token of some kind.
An arrow function reaches as far as it can, so nothing that `prolongs` may follow it. -/
structure ValueAs (t : Dialect) (R : Tape → Expr → Tape → Prop) (ok : TokenKind → Prop) (e : Expr)
    (P : Tape) : Prop extends e.Written t P where
  reads : ∀ S : Tape, ok S.kind → (e.isArrow = true → S.kind.prolongs = false) →
    R (P ++ S) (e.settle t.surface) S

/-- What an operator before an expression finds: a sign only where `UnaryOp.mergesWith` keeps
the two apart. -/
def Expr.Starts (e : Expr) (rest : List Char) : Prop :=
  ∃ c cs, rest = c :: cs ∧ c ≠ '=' ∧ (c = '-' → UnaryOp.mergesWith .neg e = true) ∧
    (c = '+' → UnaryOp.mergesWith .plus e = true)

/-- Text that begins with no sign at all satisfies `Expr.Starts` whatever the expression. -/
theorem Plain.starts {rest : List Char} (h : Plain rest) (e : Expr) : e.Starts rest := by
  obtain ⟨c, cs, rfl, heq, hminus, hplus⟩ := h
  exact ⟨c, cs, rfl, heq, fun h => absurd h hminus, fun h => absurd h hplus⟩

theorem leads_plain {s : String} (h : Plain s.toList) {ok : List Char → Prop} :
    (Doc.text s).Leads ok Plain :=
  Doc.leads_text fun rest _ => h.append rest

/-- The printed form of an expression begins with no sign that another one could run into: it
`Leads` to `Plain` text. -/
def Expr.BeginsPlain (t : Dialect) (e : Expr) : Prop :=
  (e.doc t.surface).Leads Anything Plain

/-- Whether a form begins with a sign depends on its first part, if that is not empty. -/
theorem leads_plain_append {a b : Doc} (h : a.Leads Anything Plain) :
    (a ++ b).Leads Anything Plain :=
  h.append Doc.leads_anything

/-! ## Values -/

/-- A value is printed as some pieces, and read back as a `.primary` before anything but an
arrow. -/
structure PrimaryAs (t : Dialect) (e : Expr) (P : Tape) : Prop
    extends ValueAs t (Reads t .primary) (· ≠ .punct .arrow) e P where
  plain : e.BeginsPlain t

/-- A name of the dialect, by `IsName` not reserved, is read back. -/
theorem PrimaryAs.symbol {n : String} (h : IsName t n) : PrimaryAs t (.symbol n) [.name n] where
  cuts := cuts_name h
  opens := Tape.opens_cons _ _ _
  reads _ _ _ := .symbol (.token _ _ _)
  plain := leads_plain h.word.plain

/-- A literal is read back if a `Genuine` token with its spelling means it. -/
theorem PrimaryAs.literal {v : Literal} (h : Genuine t v.text v.kind)
    (hv : ∀ S, Reads t .primary (.token v.kind v.text :: S) (.literal v) S) :
    PrimaryAs t (.literal v) [.token v.kind v.text] where
  cuts := cuts_literal h
  opens := Tape.opens_cons _ _ _
  reads S _ _ := hv S
  plain := leads_plain (plain_literal h)

theorem plain_sign {s : String} {c : Char} {cs : List Char} (hs : s.toList = c :: cs)
    (hc : c ≠ '=' ∧ c ≠ '-' ∧ c ≠ '+') {ok : List Char → Prop} : (Doc.text s).Leads ok Plain :=
  leads_plain ⟨c, cs, hs, hc⟩

/-- `Doc.laidOut` begins with its opening, on one line or several. -/
theorem leads_laidOut {opening closing : String} {docs : List Doc} {after before : List Char → Prop}
    (h : (Doc.text opening).Leads Anything before) :
    (Doc.laidOut opening closing docs).Leads after before := by
  unfold Doc.laidOut
  split
  · exact ((h.append Doc.leads_anything).append Doc.leads_anything)
  · exact ((((h.append Doc.leads_anything).append Doc.leads_anything).append
      Doc.leads_anything).append Doc.leads_anything)
  · exact (((h.append Doc.leads_anything).append Doc.leads_anything).append Doc.leads_anything)

/-- An object is read back from its entries, one with none included. -/
theorem PrimaryAs.object {es : List Entry} {Ps : List Tape}
    (h : List.Forall₂ (EntersAs t) es Ps) :
    PrimaryAs t (.object es) (.sign .lbrace :: (Tape.commas Ps ++ [.sign .rbrace])) where
  cuts := by
    rw [Expr.doc]
    exact ((EntersAs.cutAll h).laidOut (p := .lbrace) (q := .rbrace) rfl rfl).anywhere
  opens := Tape.opens_cons _ _ _
  reads S _ _ := by
    simp only [Expr.settle, List.cons_append, List.append_assoc, List.nil_append]
    exact .object .cons (reads_entries h rfl) .cons
  plain := by
    rw [Expr.BeginsPlain, Expr.doc]
    exact leads_laidOut (plain_sign rfl (by decide))

/-- So is an array from its elements. -/
theorem PrimaryAs.array {es : List Expr} {Ps : List Tape} (h : List.Forall₂ (AssignsAs t) es Ps) :
    PrimaryAs t (.array es) (.sign .lbrack :: (Tape.commas Ps ++ [.sign .rbrack])) where
  cuts := by
    rw [Expr.doc]
    exact ((AssignsAs.cutAll h).laidOut (p := .lbrack) (q := .rbrack) rfl rfl).anywhere
  opens := Tape.opens_cons _ _ _
  reads S _ _ := by
    simp only [Expr.settle, List.cons_append, List.append_assoc, List.nil_append]
    cases es with
    | nil =>
      cases h
      exact .array .cons (.elementsNone (.inl rfl)) .cons
    | cons e es =>
      exact .array .cons (reads_elements h (by simp) false false (.inr rfl) rfl) .cons
  plain := by
    rw [Expr.BeginsPlain, Expr.doc]
    exact leads_laidOut (plain_sign rfl (by decide))

/-- An expression in parentheses is read back as `Expr.grouping`. -/
theorem PrimaryAs.grouping {e : Expr} {P : Tape} (h : AssignsAs t e P) :
    PrimaryAs t (.grouping e) (.sign .lparen :: (P ++ [.sign .rparen])) where
  cuts := by
    rw [Expr.doc, Expr.fitted_comma]
    exact (cuts_grouping h.cuts).anywhere
  opens := Tape.opens_cons _ _ _
  reads S hS _ := by
    simp only [Expr.settle, List.cons_append, List.append_assoc, List.nil_append]
    exact h.reads_grouping hS
  plain := by
    rw [Expr.BeginsPlain, Expr.doc]
    exact leads_plain_append (leads_plain_append (plain_sign rfl (by decide)))

theorem Expr.settles_ne_nil {s : Surface} {es : List Expr} (h : es ≠ []) :
    Expr.settles s es ≠ [] := by
  cases es with
  | nil => exact absurd rfl h
  | cons e es => simp [Expr.settles]

/-- Several elements in parentheses, or one before a comma, are read back as `Expr.list`. One
without a comma would be an `Expr.grouping`. -/
theorem PrimaryAs.list {es : List Expr} {Ps : List Tape} (h : List.Forall₂ (AssignsAs t) es Ps)
    {comma : Bool} (hne : es ≠ []) (htwo : ∀ e, es = [e] → comma = true) :
    PrimaryAs t (.list es comma) (argumentPieces Ps comma) where
  cuts := (cuts_list h comma).anywhere
  opens := Tape.opens_cons _ _ _
  reads S hS _ := by
    refine .list (reads_arguments h comma (fun hnil => absurd hnil hne) S) hS
      (Expr.settles_ne_nil hne) ?_
    intro e he
    match es with
    | [e'] => exact htwo e' rfl
    | _ :: _ :: _ => simp [Expr.settles] at he
  plain := by
    rw [Expr.BeginsPlain, Expr.doc]
    exact leads_plain_append (leads_plain_append (leads_plain_append (plain_sign rfl (by decide))))

/-! ## Functions -/

/-- A block is printed as some pieces, which `.block` reads back. -/
structure BlockAs (t : Dialect) (body : Block) (P : Tape) : Prop where
  cuts : (Print.block t.surface (Declaration.docs t.surface body)).Cuts t Boundary P
  opens : P.Opens
  reads : ∀ S, Reads t .block (P ++ S) (Declaration.settles t.surface body) S

theorem signature_leads {ps : List String} {ok : List Char → Prop} :
    (Print.signature ps).Leads ok Boundary :=
  ((Doc.leads_boundary rfl (by decide) (by decide)).append Doc.leads_anything).append
    Doc.leads_anything

/-- A name after a space is cut as the name. -/
theorem space_name_cuts {n : String} (h : IsName t n) :
    (Doc.text " " ++ Doc.text n).Cuts t Boundary [.name n] :=
  cuts_space.then (cuts_name h)

theorem space_leads {a : Doc} {ok : List Char → Prop} : (Doc.text " " ++ a).Leads ok Boundary :=
  Doc.text_space_leads.append Doc.leads_anything

/-- Parameters and a block, after the beginning of a function: `Print.signature` and
`Print.block`. -/
theorem cuts_functionEnd {head : Doc} {H : Tape} (hhead : head.Cuts t Boundary H) {ps : List String}
    (hps : ∀ p ∈ ps, IsName t p) {body : Block} {P : Tape} (hb : BlockAs t body P) :
    (head ++ Print.signature ps ++ " "
      ++ Print.block t.surface (Declaration.docs t.surface body)).Cuts t Boundary
      (H ++ (signaturePieces ps ++ P)) :=
  (((hhead.append (cuts_signature hps) signature_leads).then cuts_space).then hb.cuts).pieces
    (by simp)

/-- Both words for functions begin with a letter. -/
theorem functionWord_plain {ok : List Char → Prop} :
    (Doc.text t.surface.functionWord).Leads ok Plain := by
  cases t <;> exact plain_sign rfl (by decide)

/-- A function with or without a name is read back. -/
theorem PrimaryAs.function {name : Option String} {ps : List String} {body : Block} {P : Tape}
    (hname : ∀ n ∈ name, IsName t n) (hps : ∀ p ∈ ps, IsName t p) (hb : BlockAs t body P) :
    PrimaryAs t (.function name ps body)
      (.token t.functionWord t.surface.functionWord ::
        (name.toList.map .name ++ (signaturePieces ps ++ P))) where
  cuts := by
    cases name with
    | none =>
      -- without a name the head is the word and an empty form
      have hempty : Doc.empty.Leads Boundary Boundary := Doc.leads_empty
      have hhead := (cuts_functionWord (t := t)).append (Q := []) Doc.cuts_empty hempty
      rw [Expr.doc]
      exact (cuts_functionEnd hhead hps hb).pieces (by simp)
    | some n =>
      have hhead := (cuts_functionWord (t := t)).append (space_name_cuts (hname n rfl)) space_leads
      rw [Expr.doc]
      exact (cuts_functionEnd hhead hps hb).pieces (by simp)
  opens := Tape.opens_cons _ _ _
  reads S _ _ := by
    have hsignature := reads_signature (t := t) ps (P ++ S)
    simp only [Expr.settle, List.cons_append, List.append_assoc]
    cases name with
    | none => exact .functionBare .cons nofun hsignature (hb.reads S)
    | some n => exact .functionNamed .cons (.token _ _ _) hsignature (hb.reads S)
  plain := by
    cases name <;> rw [Expr.BeginsPlain, Expr.doc] <;>
    exact leads_plain_append (leads_plain_append (leads_plain_append
      (leads_plain_append functionWord_plain)))

theorem arrowHead_plain {ps : List String} {ok : List Char → Prop} :
    (Print.arrowHead ps).Leads ok Plain :=
  ((plain_sign rfl (by decide)).append Doc.leads_anything).append Doc.leads_anything

/-- An arrow function with a block for its body is read back. -/
theorem PrimaryAs.arrowBlock {ps : List String} {body : Block} {P : Tape}
    (hps : ∀ p ∈ ps, IsName t p) (hb : BlockAs t body P) :
    PrimaryAs t (.arrowBlock ps body) (signaturePieces ps ++ .sign .arrow :: P) where
  cuts := by
    rw [Expr.doc]
    exact ((cuts_arrowHead hps).then hb.cuts).pieces (by simp)
  opens := Tape.opens_cons _ _ _
  reads S _ _ := by
    simp only [Expr.settle, List.cons_append, List.append_assoc]
    exact .arrowBlock (reads_params hps _) .cons (hb.reads S)
  plain := by
    rw [Expr.BeginsPlain, Expr.doc]
    exact leads_plain_append arrowHead_plain

/-- A body that `readsAsBlock` is printed in parentheses, and read as a node in parentheses. Any
other is printed as it is. -/
theorem PrimaryAs.arrow {ps : List String} {body : Expr} {P : Tape} (hps : ∀ p ∈ ps, IsName t p)
    (hb : AssignsAs t body P) :
    PrimaryAs t (.arrow ps body)
      (signaturePieces ps ++ .sign .arrow :: enclosedPieces (body.readsAsBlock t.surface) P) := by
  have hplain : (Expr.arrow ps body).BeginsPlain t := by
    rw [Expr.BeginsPlain, Expr.doc]
    exact leads_plain_append arrowHead_plain
  cases hblock : body.readsAsBlock t.surface with
  | true =>
    rw [enclosedPieces, if_pos rfl]
    refine ⟨⟨⟨?_, Tape.opens_cons _ _ _⟩, ?_⟩, hplain⟩
    · rw [Expr.doc, if_pos hblock, Expr.fitted_comma]
      exact (((cuts_arrowHead hps).then (cuts_grouping hb.cuts)).anywhere).pieces
        (by simp)
    · intro S _ hend
      have hend := hend rfl
      -- what follows prolongs nothing, so the parentheses are all of the body
      have hbody := (hb.reads_grouping (TokenKind.prolongsValue_eq_false
        (TokenKind.prolongs_eq_false hend).1).2.2).assignment_of_primary hend
      simp only [Expr.settle, hblock, if_true, List.cons_append, List.append_assoc, List.nil_append]
      exact .arrow (reads_params hps _) .cons (by cases t <;> nofun) hbody
  | false =>
    rw [enclosedPieces, if_neg (by simp)]
    refine ⟨⟨⟨?_, Tape.opens_cons _ _ _⟩, ?_⟩, hplain⟩
    · rw [Expr.doc, if_neg (by simp [hblock]), Expr.fitted_of_le hb.binds]
      exact ((cuts_arrowHead hps).then hb.cuts).pieces (by simp)
    · intro S _ hend
      have hbody := hb.reads S (hend rfl)
      simp only [Expr.settle, hblock, Bool.false_eq_true, if_false, List.cons_append,
        List.append_assoc]
      exact .arrow (reads_params hps _) .cons (hbody.kind_ne_blockOpen (by simpa using hblock))
        hbody

/-! ## Calls, indices and members -/

/-- A value is printed as some pieces, and what goes on from it by `.memberFrom` is read from
them and what follows. -/
structure ExtendsAs (t : Dialect) (e : Expr) (P : Tape) : Prop extends e.Written t P where
  plain : e.BeginsPlain t
  binds : e.isArrow = false → .member ≤ e.precedence
  goesOn : ∀ (S : Tape) (x : Expr) (S' : Tape), S.kind ≠ .punct .arrow →
    (e.isArrow = true → S.kind.prolongs = false) →
    Reads t (.memberFrom (e.settle t.surface)) S x S' → Reads t .member (P ++ S) x S'

/-- A value with what follows it is printed as some pieces, and read back as a `.member`. -/
structure MemberAs (t : Dialect) (e : Expr) (P : Tape) : Prop
    extends ValueAs t (Reads t .member) (fun k => k.extendsValue = false ∧ k ≠ .punct .arrow) e P
    where
  plain : e.BeginsPlain t

/-- If nothing goes on from a value, the value itself is read. -/
theorem ExtendsAs.memberAs {e : Expr} {P : Tape} (h : ExtendsAs t e P) : MemberAs t e P where
  toWritten := h.toWritten
  reads S hS hend := h.goesOn S _ S hS.2 hend (.memberEnd hS.1)
  plain := h.plain

/-- A primary is where a `.member` begins. -/
theorem PrimaryAs.extendsAs {e : Expr} {P : Tape} (h : PrimaryAs t e P)
    (hbinds : e.isArrow = false → .atom ≤ e.precedence) : ExtendsAs t e P where
  toWritten := h.toWritten
  plain := h.plain
  binds ho := Nat.le_trans (by decide) (hbinds ho)
  goesOn S _ _ hS hend hx :=
    have hvalue := h.reads S hS hend
    .member hvalue.kind_of_primary.1 hvalue hx

theorem paren_leads {es : List Expr} {comma : Bool} {ok : List Char → Prop} :
    ((Expr.list es comma).doc t.surface).Leads ok Boundary := by
  rw [Expr.doc]
  exact (((Doc.leads_boundary rfl (by decide) (by decide)).append Doc.leads_anything).append
    Doc.leads_anything).append Doc.leads_anything

theorem lbrack_leads {ok : List Char → Prop} : (Doc.text "[").Leads ok Boundary :=
  Doc.leads_boundary rfl (by decide) (by decide)

theorem rbrack_leads {ok : List Char → Prop} : (Doc.text "]").Leads ok Boundary :=
  Doc.leads_boundary rfl (by decide) (by decide)

section Extend

variable {e : Expr} {P : Tape}

/-- Arguments after a value that is not an arrow function: `.memberFrom` goes on from the call. -/
theorem ExtendsAs.call (h : ExtendsAs t e P) (ho : e.isArrow = false) {es : List Expr}
    {Ps : List Tape} {comma : Bool} (hes : List.Forall₂ (AssignsAs t) es Ps)
    (hcomma : es = [] → comma = false) :
    ExtendsAs t (.call e (.list es comma)) (P ++ argumentPieces Ps comma) where
  cuts := by
    rw [Expr.doc, if_pos (by simp [Expr.isList]), Expr.fitted_of_le (h.binds ho)]
    exact h.cuts.append ((cuts_list hes comma).anywhere) paren_leads
  opens := h.opens.append _
  plain := by
    rw [Expr.BeginsPlain, Expr.doc, if_pos (by simp [Expr.isList]), Expr.fitted_of_le (h.binds ho)]
    exact leads_plain_append h.plain
  binds _ := Nat.le_refl _
  goesOn S x S' _ _ hx := by
    rw [List.append_assoc]
    refine h.goesOn _ x S' nofun (fun ho' => absurd ho' (by simp [ho])) ?_
    exact .memberCall (by simpa using ho) (reads_arguments hes comma hcomma S) hx

/-- An index after a value. -/
theorem ExtendsAs.index (h : ExtendsAs t e P) (ho : e.isArrow = false) {p : Expr} {Q : Tape}
    (hp : ExprAs t p Q) :
    ExtendsAs t (.index e p) (P ++ .sign .lbrack :: (Q ++ [.sign .rbrack])) where
  cuts := by
    have hopen : (Doc.text "[").Cuts t Anything [.sign .lbrack] := cuts_sign .lbrack rfl
    have hclose : (Doc.text "]").Cuts t Anything [.sign .rbrack] := cuts_sign .rbrack rfl
    rw [Expr.doc, Expr.fitted_of_le (h.binds ho), Expr.fitted_comma]
    exact ((((h.cuts.append hopen lbrack_leads).then hp.cuts).append hclose rbrack_leads).imp
      fun _ _ => trivial).pieces (by simp)
  opens := h.opens.append _
  plain := by
    rw [Expr.BeginsPlain, Expr.doc, Expr.fitted_of_le (h.binds ho)]
    exact leads_plain_append (leads_plain_append (leads_plain_append h.plain))
  binds _ := Nat.le_refl _
  goesOn S x S' _ _ hx := by
    simp only [List.append_assoc, List.cons_append, List.nil_append]
    refine h.goesOn _ x S' nofun (fun ho' => absurd ho' (by simp [ho])) ?_
    exact .memberIndex (by simpa using ho) .cons (hp.reads _ rfl nofun) .cons hx

/-- Text that begins with no digit, so a point before it is no part of a number. -/
def NoDigit (rest : List Char) : Prop :=
  ∀ c, rest.head? = some c → c.isDigit = false

theorem dot_leads : (Doc.text ".").Leads NoDigit Boundary :=
  Doc.leads_text fun _ hrest => ⟨by decide, fun _ => hrest⟩

/-- `IsWord` excludes a digit at the front. -/
theorem leads_noDigit {n : String} (hn : IsWord n) {ok : List Char → Prop} :
    (Doc.text n).Leads ok NoDigit := by
  obtain ⟨⟨c, cs, hcs, hc⟩, -⟩ := hn
  refine Doc.leads_text fun rest _ c' hc' => ?_
  obtain rfl : c = c' := by simpa [hcs] using hc'
  exact isDigit_of_isWordStart hc

/-- A point and a name after a word or a number. The name keeps the point from running on by
`NoDigit`. -/
theorem cuts_dot {a : Doc} (ha : a.Cuts t Boundary P) {n : String} (hn : IsWord n) {k : TokenKind}
    (hk : (Doc.text n).Cuts t Boundary [.token k n]) :
    (a ++ "." ++ n).Cuts t Boundary (P ++ [.sign .dot, .token k n]) := by
  have hdot : (Doc.text ".").Cuts t Anything [.sign .dot] := cuts_sign .dot rfl
  exact ((ha.append hdot.anywhere dot_leads).append hk (leads_noDigit hn)).pieces (by simp)

/-- A member after a value. Its name is any `IsWord`, also a reserved one. -/
theorem ExtendsAs.dot (h : ExtendsAs t e P) (ho : e.isArrow = false) {n : String} (hn : IsWord n) :
    ExtendsAs t (.binary .dot e (.symbol n)) (P ++ [.sign .dot, .token (t.wordKind n) n]) where
  cuts := by
    rw [Expr.doc, Expr.fitted_of_le (h.binds ho)]
    exact cuts_dot h.cuts hn (cuts_memberName hn)
  opens := h.opens.append _
  plain := by
    rw [Expr.BeginsPlain, Expr.doc, Expr.fitted_of_le (h.binds ho)]
    exact leads_plain_append (leads_plain_append h.plain)
  binds _ := Nat.le_refl _
  goesOn S x S' _ _ hx := by
    simp only [List.append_assoc, List.cons_append, List.nil_append]
    refine h.goesOn _ x S' nofun (fun ho' => absurd ho' (by simp [ho])) ?_
    exact .memberDot (by simpa using ho) .cons (.token _ _ _) (namesMember_wordKind t n) hx

end Extend

/-! ## Paths and `new` -/

/-- A path is printed as its first name and some pieces, and what goes on from it by `.pathFrom`
is read from them and what follows. -/
structure PathAs (t : Dialect) (n : String) (e : Expr) (P : Tape) : Prop where
  cuts : (e.doc t.surface).Cuts t Boundary (.name n :: P)
  binds : .member ≤ e.precedence
  goesOn : ∀ (S : Tape) (x : Expr) (S' : Tape),
    Reads t (.pathFrom (e.settle t.surface)) S x S' → Reads t (.pathFrom (.symbol n)) (P ++ S) x S'

theorem PathAs.symbol {n : String} (h : IsName t n) : PathAs t n (.symbol n) [] where
  cuts := cuts_name h
  binds := Nat.le_of_ble_eq_true rfl
  goesOn _ _ _ hx := hx

/-- One more member of a path. -/
theorem PathAs.dot {n m : String} {e : Expr} {P : Tape} (h : PathAs t n e P) (hm : IsWord m) :
    PathAs t n (.binary .dot e (.symbol m)) (P ++ [.sign .dot, .token (t.wordKind m) m]) where
  cuts := by
    rw [Expr.doc, Expr.fitted_of_le h.binds]
    exact cuts_dot h.cuts hm (cuts_memberName hm)
  binds := Nat.le_refl _
  goesOn S x S' hx := by
    simp only [List.append_assoc, List.cons_append, List.nil_append]
    exact h.goesOn _ x S' (.pathMore .cons (.token _ _ _) (namesMember_wordKind t m) hx)

theorem new_cuts : (Doc.text "new ").Cuts t Anything [.word .newKw] :=
  cuts_wordSpace rfl (by cases t <;> decide)

theorem new_plain {ok : List Char → Prop} : (Doc.text "new ").Leads ok Plain :=
  plain_sign rfl (by decide)

/-- `new` with a path and no arguments. Nothing goes on from it, since what follows would be
read as its arguments. -/
theorem MemberAs.newBare {n : String} {e : Expr} {P : Tape} (h : PathAs t n e P)
    (hpath : e.isSymbolPath = true) :
    MemberAs t (.unary .new e) (.word .newKw :: .name n :: P) where
  cuts := by
    rw [Expr.doc, if_pos hpath, Expr.fitted_of_le h.binds]
    exact new_cuts.then h.cuts
  opens := Tape.opens_cons _ _ _
  reads S hS _ := by
    have hparen : S.kind ≠ .punct .lparen ∧ S.kind ≠ .punct .dot := by
      constructor <;> intro hk <;> rw [hk] at hS <;> exact absurd hS.1 (by decide)
    exact .newBare .cons (.token _ _ _) (h.goesOn S _ S (.pathEnd hparen.2)) hparen.1
  plain := by
    rw [Expr.BeginsPlain, Expr.doc, if_pos hpath]
    exact leads_plain_append new_plain

/-- `new` with a path and arguments, from which reading goes on. -/
theorem ExtendsAs.newCall {n : String} {e : Expr} {P : Tape} (h : PathAs t n e P)
    (hpath : e.isSymbolPath = true) {es : List Expr} {Ps : List Tape} {comma : Bool}
    (hes : List.Forall₂ (AssignsAs t) es Ps) (hcomma : es = [] → comma = false) :
    ExtendsAs t (.binary .new e (.list es comma))
      (.word .newKw :: .name n :: (P ++ argumentPieces Ps comma)) where
  cuts := by
    rw [Expr.doc, if_neg (by simp [hpath]), if_neg (by simp [Expr.isList]),
      Expr.fitted_of_le h.binds]
    exact ((new_cuts.then h.cuts).append ((cuts_list hes comma).anywhere)
      paren_leads).pieces (by simp)
  opens := Tape.opens_cons _ _ _
  plain := by
    rw [Expr.BeginsPlain, Expr.doc, if_neg (by simp [hpath]), if_neg (by simp [Expr.isList])]
    exact leads_plain_append (leads_plain_append new_plain)
  binds _ := Nat.le_refl _
  goesOn S x S' _ _ hx := by
    have hargs := reads_arguments hes comma hcomma S
    -- the path ends at the parenthesis
    have hend : (argumentPieces Ps comma ++ S).kind ≠ .punct .dot := nofun
    simp only [List.cons_append, List.append_assoc]
    exact .newCall .cons (.token _ _ _) (h.goesOn _ _ _ (.pathEnd hend)) hargs hx

end Diglot

import Diglot.Proofs.Openings

/-!
# The text of a part inside the text of a whole

Wherever a tree is printed, the text of each expression inside it stands there in one piece: what
comes before it does not matter, and what comes after it prolongs no word or number at its end. How
a part is laid out depends on the page that has been reached when it is printed, so the part is
printed on a page of its own here.

- `Doc.Prints`: what a document comes to on a page.
- `Doc.Holds`: the text of a document holds a text of some form.
- `Expr.ShownAs`: the texts of an expression.
- `Expr.holds_doc`: the text of an expression holds those of all expressions inside it.
- `statement_opening`: what an expression statement, and the body of each arrow function in it,
  begins with where it is printed.
-/

namespace Diglot

open Lexeme

/-! ## Printed texts -/

namespace Doc

/-- On a page without a limit, indented by blanks, a document is written to its end by
`Doc.run`, and this is its text. -/
structure Prints (doc : Doc) (page : Emitter) (T : List Char) : Prop where
  limit : page.sink.limit = none
  blanks : ∀ c ∈ page.indent.toList, c = ' '
  finished : (doc.run page).2 = none
  wrote : page.Wrote T (doc.run page).1

variable {a b doc : Doc} {page : Emitter} {T : List Char}

namespace Prints

/-- What a document `Prints` is one of its texts in `Doc.Writes`. -/
theorem writes (h : doc.Prints page T) : doc.Writes page.indent.toList page.written T := by
  obtain ⟨U, hU, hwrote⟩ := exists_wrote h.limit h.finished
  rwa [h.wrote.unique hwrote]

/-- Of two documents in a row the second is printed on the page that the first one leaves. -/
theorem seq (h : (a ++ b).Prints page T) :
    ∃ T₁ T₂, a.Prints page T₁ ∧ b.Prints (a.run page).1 T₂ ∧ T = T₁ ++ T₂ := by
  have hfirst : (a.run page).2 = none := Emitter.finished_of_andThen h.finished
  have hrun : (a ++ b).run page = b.run (a.run page).1 := Emitter.andThen_of_none hfirst _
  obtain ⟨T₁, -, hwrote₁⟩ := exists_wrote h.limit hfirst
  have hsecond := h.finished
  have hwrote := h.wrote
  rw [hrun] at hsecond hwrote
  obtain ⟨T₂, -, hwrote₂⟩ := exists_wrote hwrote₁.limit hsecond
  refine ⟨T₁, T₂, ⟨h.limit, h.blanks, hfirst, hwrote₁⟩, ⟨hwrote₁.limit, ?_, hsecond, hwrote₂⟩,
    hwrote.unique (hwrote₁.trans hwrote₂)⟩
  rw [hwrote₁.indent]
  exact h.blanks

theorem indented {extra : String} (hextra : ∀ c ∈ extra.toList, c = ' ')
    (h : (Doc.indented extra doc).Prints page T) :
    doc.Prints { page with indent := page.indent ++ extra } T where
  limit := h.limit
  blanks c hc := by
    rw [String.toList_append, List.mem_append] at hc
    exact hc.elim (h.blanks c) (hextra c)
  finished := h.finished
  wrote := by
    obtain ⟨U, -, hwrote⟩ :=
      exists_wrote (e := { page with indent := page.indent ++ extra }) h.limit h.finished
    have hsame : page.Wrote U ((Doc.indented extra doc).run page).1 :=
      ⟨hwrote.sink, rfl, hwrote.written⟩
    rwa [h.wrote.unique hsame]

end Prints

/-! ## Texts inside texts -/

/-- Wherever a document `Prints`, a text of a certain form stands inside its text. Before text
of the form `ok`, what follows it is a `Boundary`. -/
def Holds (doc : Doc) (ok : List Char → Prop) (form : List Char → Prop) : Prop :=
  ∀ page T, doc.Prints page T → ∃ before shown after, form shown ∧ shown ≠ [] ∧
    T = before ++ (shown ++ after) ∧ ∀ rest, ok rest → Boundary (after ++ rest)

variable {ok mid form : List Char → Prop}

theorem holds_self (h : ∀ page T, doc.Prints page T → form T ∧ T ≠ []) :
    doc.Holds Boundary form := by
  intro page T hT
  obtain ⟨hform, hne⟩ := h page T hT
  exact ⟨[], T, [], hform, hne, by simp, fun _ hrest => hrest⟩

/-- A tree that cannot be printed has no text, so it holds whatever is asked. -/
theorem holds_fault {f : Defect} : (fault f).Holds ok form :=
  fun _ _ hT => absurd hT.finished (by simp [Doc.run])

theorem Holds.imp (h : a.Holds mid form) (himp : ∀ cs, ok cs → mid cs) : a.Holds ok form := by
  intro page T hT
  obtain ⟨before, shown, after, hform, hne, hparts, hafter⟩ := h page T hT
  exact ⟨before, shown, after, hform, hne, hparts, fun rest hrest => hafter rest (himp rest hrest)⟩

/-- What the second of two documents `Holds` is held whatever the first one is. -/
theorem Holds.right (h : b.Holds ok form) : (a ++ b).Holds ok form := by
  intro page T hT
  obtain ⟨T₁, T₂, -, hT₂, rfl⟩ := hT.seq
  obtain ⟨before, shown, after, hform, hne, rfl, hafter⟩ := h _ T₂ hT₂
  exact ⟨T₁ ++ before, shown, after, hform, hne, by simp, hafter⟩

/-- What the first of two documents `Holds` is held, if the second one `Leads` to text of the
form that the first one asks for. -/
theorem Holds.left (h : a.Holds mid form) (hb : b.Leads ok mid) : (a ++ b).Holds ok form := by
  intro page T hT
  obtain ⟨T₁, T₂, hT₁, hT₂, rfl⟩ := hT.seq
  obtain ⟨before, shown, after, hform, hne, rfl, hafter⟩ := h page T₁ hT₁
  have hwritten : (a.run page).1.written = true := by
    rw [hT₁.wrote.written]
    simp [hne]
  have hwrites := hT₂.writes
  rw [hwritten] at hwrites
  refine ⟨before, shown, after ++ T₂, hform, hne, by simp, fun rest hrest => ?_⟩
  rw [List.append_assoc]
  exact hafter _ (hb _ T₂ rest hT₂.blanks hwrites hrest)

/-- Before `Anything`, it does not matter what comes next. -/
theorem Holds.then (h : a.Holds Anything form) : (a ++ b).Holds ok form :=
  h.left leads_anything

/-- After something else, and before what makes text of the form asked for. -/
theorem Holds.between (h : b.Holds mid form) {c : Doc} (hc : c.Leads ok mid) :
    (a ++ b ++ c).Holds ok form :=
  h.right.left hc

theorem Holds.indented (h : a.Holds ok form) {extra : String}
    (hextra : ∀ c ∈ extra.toList, c = ' ') : (Doc.indented extra a).Holds ok form :=
  fun _ T hT => h _ T (hT.indented hextra)

/-- The parentheses of `Expr.fitted` do not matter. -/
theorem Holds.fitted (h : a.Holds Boundary form) (required : Precedence) (e : Expr) :
    (e.fitted required a).Holds Boundary form := by
  unfold Expr.fitted
  split
  · exact h.between rparen_leads
  · exact h

/-! ### Lists -/

/-- One of some documents `Holds` a text of a certain form. -/
def HoldIn (docs : List Doc) (form : List Char → Prop) : Prop :=
  ∃ d ∈ docs, d.Holds Boundary form

theorem not_holdIn_nil : ¬HoldIn [] form :=
  fun ⟨_, hmem, _⟩ => List.not_mem_nil hmem

theorem holdIn_cons {d : Doc} {docs : List Doc} :
    HoldIn (d :: docs) form ↔ d.Holds Boundary form ∨ HoldIn docs form :=
  List.exists_mem_cons_iff ..

namespace HoldIn

variable {docs : List Doc}

/-- What one of them holds is held in a row by `Doc.join`. -/
theorem join (h : HoldIn docs form) : (Doc.join ", " docs).Holds Boundary form := by
  induction docs with
  | nil => exact absurd h not_holdIn_nil
  | cons d docs ih =>
    cases docs with
    | nil => exact (holdIn_cons.1 h).resolve_right not_holdIn_nil
    | cons d' docs =>
      rcases holdIn_cons.1 h with hd | hds
      · exact (hd.left comma_leads).then
      · exact (ih hds).right

theorem commaLines (h : HoldIn docs form) : (Doc.commaLines docs).Holds Boundary form := by
  induction docs with
  | nil => exact absurd h not_holdIn_nil
  | cons d docs ih =>
    rcases holdIn_cons.1 h with hd | hds
    · exact (hd.indented blanks_two).between (leads_commaLines docs)
    · exact (ih hds).right

/-- It is held by `Doc.laidOut`, on one line or on several. -/
theorem laidOut (h : HoldIn docs form) (opening closing : String) :
    (Doc.laidOut opening closing docs).Holds ok form := by
  cases docs with
  | nil => exact absurd h not_holdIn_nil
  | cons d docs =>
    cases docs with
    | nil =>
      have hd := (holdIn_cons.1 h).resolve_right not_holdIn_nil
      exact (hd.between text_space_leads).then
    | cons d' docs =>
      have hitems : (freshLine ++ Doc.text "  " ++ Doc.indented "  " d
          ++ Doc.commaLines (d' :: docs)).Holds Boundary form := by
        rcases holdIn_cons.1 h with hd | hds
        · exact (hd.indented blanks_two).between (leads_commaLines _)
        · exact hds.commaLines.right
      exact ((hitems.indented blanks_two).between freshLine_leads_boundary).then

end HoldIn

end Doc

/-! ### Parts of statements -/

section Parts

open Doc Print

variable {t : Dialect} {test body : Doc} {ok form : List Char → Prop}

theorem holds_block (h : body.Holds LineEnd form) (s : Surface) : (block s body).Holds ok form :=
  ((h.indented blanks_two).between freshLine_leads_lineEnd).then

theorem headerClose_leads : (Doc.text t.surface.headerClose).Leads Boundary Boundary := by
  cases t with
  | brace => exact rparen_leads
  | block => exact leads_text fun _ hrest => hrest

theorem holds_header (t : Dialect) (h : test.Holds Boundary form) :
    (header t.surface test).Holds Boundary form :=
  h.between headerClose_leads

/-- `Print.branch` holds what its test or its body holds. -/
theorem holds_branch (t : Dialect) (h : test.Holds Boundary form ∨ body.Holds LineEnd form)
    (further : Bool) : (branch t.surface further test body).Holds (AfterBranch t) form := by
  rcases h with htest | hbody
  · cases t with
    | brace => exact ((holds_header .brace htest).between text_space_leads).then
    | block => exact (htest.between text_space_leads).then.then
  · cases t with
    | brace => exact (holds_block hbody _).right
    | block => exact (hbody.indented blanks_two).right

/-- `Print.elseBlock` holds what its body holds. -/
theorem holds_elseBlock (h : body.Holds LineEnd form) :
    (elseBlock t.surface body).Holds LineEnd form := by
  cases t with
  | brace => exact (holds_block h _).right
  | block => exact (h.indented blanks_two).right

/-- After a branch `Print.elseBlock` makes text that may follow one. -/
theorem elseBlock_leads : (elseBlock t.surface body).Leads ok (AfterBranch t) := by
  cases t with
  | brace => exact (leads_space rfl).append leads_anything
  | block => exact leads_of_startsLine rfl

theorem beforeElsif_leads : (beforeElsif t.surface).Leads ok (AfterBranch t) := by
  cases t with
  | brace => exact leads_space rfl
  | block => exact freshLine_leads_lineEnd

/-- `Print.conditionalEnd` begins on a line of its own, or writes nothing. -/
theorem conditionalEnd_leads (further : Bool) :
    (conditionalEnd t.surface further).Leads LineEnd LineEnd := by
  cases t with
  | brace => exact leads_empty
  | block =>
    cases further with
    | true => exact leads_empty
    | false => exact leads_of_startsLine rfl

theorem leads_trailingComma (trailingComma : Bool) :
    (Doc.when trailingComma ",").Leads Boundary Boundary := by
  cases trailingComma with
  | false => exact leads_empty
  | true => exact leads_boundary rfl (by decide) (by decide)

end Parts

/-! ## Trees -/

/-- An expression is among some nodes, which are all `Node.Lexical`. -/
structure Expr.Among (t : Dialect) (x : Expr) (ns : List Node) : Prop where
  lexical : ∀ n ∈ ns, n.Lexical t
  mem : Node.expr x ∈ ns

namespace Expr.Among

variable {t : Dialect} {x : Expr} {n : Node} {ns ns' : List Node}

theorem not_nil : ¬x.Among t [] :=
  fun h => List.not_mem_nil h.mem

theorem cases_cons (h : x.Among t (n :: ns)) : n = .expr x ∨ x.Among t ns := by
  rcases List.mem_cons.1 h.mem with hn | hns
  · exact .inl hn.symm
  · exact .inr ⟨fun m hm => h.lexical m (.tail _ hm), hns⟩

theorem cases_append (h : x.Among t (ns ++ ns')) : x.Among t ns ∨ x.Among t ns' := by
  refine (List.mem_append.1 h.mem).imp (fun hmem => ⟨fun m hm => ?_, hmem⟩)
    fun hmem => ⟨fun m hm => ?_, hmem⟩
  · exact h.lexical m (List.mem_append_left _ hm)
  · exact h.lexical m (List.mem_append_right _ hm)

/-- A statement or a declaration is no expression, so the expression is further inside. -/
theorem inside (h : x.Among t (n :: ns)) (hn : n ≠ .expr x) : x.Among t ns :=
  h.cases_cons.resolve_left hn

end Expr.Among

section Tree

open Doc Print

variable {t : Dialect} {x : Expr}

/-- The text that an expression whose nodes are `Node.Lexical` `Prints` on some page. -/
def Expr.ShownAs (t : Dialect) (x : Expr) (T : List Char) : Prop :=
  (∀ n ∈ x.nodes, n.Lexical t) ∧ ∃ page, (x.doc t.surface).Prints page T

/-- The text of an expression holds itself, and by another argument what is inside it. -/
theorem Expr.Among.elim {e : Expr} {ns : List Node} (h : x.Among t e.nodes)
    (hnodes : e.nodes = .expr e :: ns)
    (hinside : x.Among t ns → (e.doc t.surface).Holds Boundary (x.ShownAs t)) :
    (e.doc t.surface).Holds Boundary (x.ShownAs t) := by
  rcases (hnodes ▸ h).cases_cons with heq | hinner
  · obtain rfl : e = x := Node.expr.inj heq
    refine holds_self fun page T hT => ⟨⟨h.lexical, page, hT⟩, ?_⟩
    exact (e.begins_doc h.lexical _ _ T hT.blanks hT.writes).1
  · exact hinside hinner

/-- Whatever follows an expression statement, its text `Holds` what the expression holds. -/
theorem holds_expr {value : Expr} {ok form : List Char → Prop}
    (h : (value.doc t.surface).Holds Boundary form) (further : Bool) :
    (Statement.doc t.surface further (.expr value)).Holds ok form := by
  have hvalue := h.fitted .comma value
  rw [Statement.doc]
  split
  · exact (hvalue.between rparen_leads).left semicolon_leads
  · exact hvalue.left semicolon_leads

mutual

/-- Wherever an expression is printed, the expressions inside it are printed: its document
`Holds` them. -/
theorem Expr.holds_doc :
    ∀ e : Expr, x.Among t e.nodes → (e.doc t.surface).Holds Boundary (x.ShownAs t)
  | .symbol _, h | .literal _, h => h.elim rfl fun h => absurd h Expr.Among.not_nil
  | .grouping inner, h => h.elim rfl fun h =>
    ((inner.holds_doc h).fitted _ _).between rparen_leads
  | .unary op operand, h => h.elim rfl fun h => by
    have ih := operand.holds_doc h
    cases op with
    | new =>
      rw [Expr.doc]
      split
      · exact (ih.fitted _ _).right
      · exact holds_fault
    | _ => exact (ih.fitted _ _).right
  | .step op operand, h => h.elim rfl fun h =>
    ((operand.holds_doc h).fitted _ _).left op.leads_spelling
  | .binary op left right, h => h.elim rfl fun hinside => by
    have ihl (hl : x.Among t left.nodes) := left.holds_doc hl
    have ihr (hr : x.Among t right.nodes) := right.holds_doc hr
    cases op with
    | new =>
      rw [Expr.doc]
      split
      next => exact holds_fault
      next =>
        split
        next => exact holds_fault
        next hlist =>
          rcases hinside.cases_append with hl | hr
          · exact ((ihl hl).fitted _ _).between (Expr.leads_of_isList (by simpa using hlist))
          · exact (ihr hr).right
    | dot =>
      -- the name of a member is no node, so what is held is on the left
      have hl := hinside.cases_append.resolve_right Expr.Among.not_nil
      cases right with
      | symbol name =>
        have hname : IsWord name := h.lexical _ (.head _)
        exact (((ihl hl).fitted _ _).left dot_leads).left (leads_noDigit hname)
      | _ => exact holds_fault
    | _ =>
      rcases hinside.cases_append with hl | hr
      · exact (((ihl hl).fitted _ _).left (BinaryOp.leads_infixText _)).then
      · exact ((ihr hr).fitted _ _).right
  | .ternary test yes no, h => h.elim rfl fun h => by
    have hquestion : (Doc.text " ? ").Leads Anything Boundary := leads_space rfl
    have hcolon : (Doc.text " : ").Leads Anything Boundary := leads_space rfl
    rcases h.cases_append with h | h
    · rcases h.cases_append with h | h
      · exact (((test.holds_doc h).fitted _ _).left hquestion).then.then.then
      · exact (((yes.holds_doc h).fitted _ _).between hcolon).then
    · exact ((no.holds_doc h).fitted _ _).right
  | .call callee arguments, h => h.elim rfl fun h => by
    have ihc (hc : x.Among t callee.nodes) := callee.holds_doc hc
    have iha (ha : x.Among t arguments.nodes) := arguments.holds_doc ha
    rw [Expr.doc]
    split
    next hlist =>
      rcases h.cases_append with h | h
      · exact ((ihc h).fitted _ _).left (Expr.leads_of_isList hlist)
      · exact (iha h).right
    next => exact holds_fault
  | .index target position, h => h.elim rfl fun h => by
    rcases h.cases_append with h | h
    · exact (((target.holds_doc h).fitted _ _).left lbrack_leads).then.then
    · exact ((position.holds_doc h).fitted _ _).between rbrack_leads
  | .object es, h => h.elim rfl fun h => (Entry.holdIn_docs es h).laidOut _ _
  | .array es, h => h.elim rfl fun h => (Expr.holdIn_docs es h).laidOut _ _
  | .list es trailingComma, h => h.elim rfl fun h =>
    ((Expr.holdIn_docs es h).join.between (leads_trailingComma _)).left rparen_leads
  | .function name params body, h => h.elim rfl fun h =>
    (holds_block (Declaration.holds_docs body h) _).right
  | .arrow params body, h => h.elim rfl fun h => by
    have ih := body.holds_doc h
    rw [Expr.doc]
    split
    · exact ((ih.fitted _ _).between rparen_leads).right
    · exact (ih.fitted _ _).right
  | .arrowBlock params body, h => h.elim rfl fun h =>
    (holds_block (Declaration.holds_docs body h) _).right

/-- So does one of the documents of several expressions. -/
theorem Expr.holdIn_docs :
    ∀ es : List Expr, x.Among t (Expr.nodesOf es) →
      HoldIn (Expr.docs t.surface es) (x.ShownAs t)
  | [], h => absurd h Expr.Among.not_nil
  | e :: es, h => holdIn_cons.2 <| h.cases_append.imp
    (fun h => (e.holds_doc h).fitted _ _) (Expr.holdIn_docs es)

theorem Entry.holdIn_docs :
    ∀ es : List Entry, x.Among t (Entry.nodesOf es) →
      HoldIn (Entry.docs t.surface es) (x.ShownAs t)
  | [], h => absurd h Expr.Among.not_nil
  | .shorthand key :: es, h => holdIn_cons.2 <| .inr <|
    Entry.holdIn_docs es (h.inside (by simp))
  | .pair key value :: es, h => holdIn_cons.2 <| h.cases_append.imp
    (fun h => ((value.holds_doc (h.inside (by simp))).fitted _ _).right)
    (Entry.holdIn_docs es)

/-- So does the document of a statement. -/
theorem Statement.holds_doc :
    ∀ (st : Statement) (further : Bool), x.Among t st.nodes →
      (st.doc t.surface further).Holds LineEnd (x.ShownAs t)
  | .ifThen test body none, further, h => by
    have hbranch := holds_branch t ((h.inside (by simp)).cases_append.imp
      (fun h => (test.holds_doc h).fitted .comma test) (Declaration.holds_docs body)) further
    exact (hbranch.imp fun _ => LineEnd.afterBranch).left (conditionalEnd_leads further)
  | .ifThen test body (some other), further, h => by
    have hbranch (h : x.Among t (test.nodes ++ Declaration.nodesOf body)) :=
      holds_branch t (h.cases_append.imp (fun h => (test.holds_doc h).fitted .comma test)
        (Declaration.holds_docs body)) further
    -- what is held is in this branch or in the other one
    have h := (h.inside (by simp)).cases_append
    cases other with
    | block other =>
      rcases h with h | h
      · exact ((hbranch h).left elseBlock_leads).left (conditionalEnd_leads further)
      · have hother := Declaration.holds_docs other (h.inside (by simp))
        exact (holds_elseBlock hother).between (conditionalEnd_leads further)
    | ifThen test' body' other =>
      rcases h with h | h
      · exact ((hbranch h).left beforeElsif_leads).then.left (conditionalEnd_leads further)
      · have hother := Statement.holds_doc (.ifThen test' body' other) true h
        exact hother.between (conditionalEnd_leads further)
    | _ => exact holds_fault.right
  | .whileLoop test body, _, h => by
    rcases (h.inside (by simp)).cases_append with h | h
    · have htest := holds_header t ((test.holds_doc h).fitted .comma test)
      exact (htest.between text_space_leads).then
    · exact (holds_block (Declaration.holds_docs body h) _).right
  | .forLoop keyword ns collection body bracketed, _, h => by
    rcases (h.inside (by simp)).cases_append with h | h
    · have hcollection := (collection.holds_doc h).fitted .comma collection
      exact ((hcollection.between headerClose_leads).left text_space_leads).then
    · exact (holds_block (Declaration.holds_docs body h) _).right
  | .throw value, _, h =>
    ((value.holds_doc (h.inside (by simp))).fitted _ _).between semicolon_leads
  | .ret none, _, h => absurd (h.inside (by simp)) Expr.Among.not_nil
  | .ret (some value), _, h =>
    ((value.holds_doc (h.inside (by simp))).fitted _ _).between semicolon_leads
  | .expr value, _, h => holds_expr (value.holds_doc (h.inside (by simp))) _
  | .block body, _, h => holds_block (Declaration.holds_docs body (h.inside (by simp))) _

/-- So does that of a declaration. -/
theorem Declaration.holds_doc :
    ∀ y : Declaration, x.Among t y.nodes → (y.doc t.surface).Holds LineEnd (x.ShownAs t)
  | .function name params body exported isAsync, h =>
    (holds_block (Declaration.holds_docs body (h.inside (by simp))) _).right
  | .var keyword name none exported, h => absurd (h.inside (by simp)) Expr.Among.not_nil
  | .var keyword name (some value) exported, h =>
    ((value.holds_doc (h.inside (by simp))).fitted _ _).between semicolon_leads
  | .vars keyword names value exported, h =>
    ((value.holds_doc (h.inside (by simp))).fitted _ _).between semicolon_leads
  | .statement st, h => (st.holds_doc false (h.inside (by simp))).right
  | .comments cs, h => absurd (h.inside (by simp)) Expr.Among.not_nil

/-- So does that of a block. -/
theorem Declaration.holds_docs :
    ∀ ys : List Declaration, x.Among t (Declaration.nodesOf ys) →
      (Declaration.docs t.surface ys).Holds LineEnd (x.ShownAs t)
  | [], h => absurd h Expr.Among.not_nil
  | y :: ys, h => h.cases_append.elim
    (fun h => (y.holds_doc h).left (Declaration.leads_docs _ ys))
    fun h => (Declaration.holds_docs ys h).right

end

end Tree

/-! ## Openings of statements and of arrow functions -/

/-- What stands before the body of an arrow function, as `Print.arrowHead` writes it. -/
theorem arrowHead_writes {params : List String} {indent T : List Char} {written : Bool}
    (h : (Print.arrowHead params).Writes indent written T) :
    T = ("(" ++ ", ".intercalate params ++ ") => ").toList := by
  obtain ⟨_, _, ⟨_, _, rfl, rfl, rfl⟩, rfl, rfl⟩ := h
  simp

/-- Where an arrow function is `ShownAs` some text, its body follows the arrow, and begins with
nothing that opens a block. -/
theorem Expr.ShownAs.arrow {t : Dialect} {params : List String} {body : Expr} {T : List Char}
    (h : (Expr.arrow params body).ShownAs t T) :
    ∃ page shown, T = ("(" ++ ", ".intercalate params ++ ") => ").toList ++ shown ∧
      (body.arrowBody t.surface).Prints page shown ∧ shown ≠ [] ∧
      ∀ rest, Boundary rest → (classify t (shown ++ rest)).1.isSignificant = true ∧
        (classify t (shown ++ rest)).1 ≠ t.blockOpen := by
  obtain ⟨hlexical, page, hT⟩ := h
  rw [Expr.doc_arrow] at hT
  obtain ⟨T₁, shown, hhead, hbody, rfl⟩ := hT.seq
  obtain ⟨hne, hbegins⟩ := body.begins_arrowBody (fun n hn => hlexical n (.tail _ hn)) _ _ shown
    hbody.blanks hbody.writes
  exact ⟨_, shown, by rw [arrowHead_writes hhead.writes], hbody, hne, hbegins⟩

/-- **An expression statement is read as an expression.** It is printed on any page, in either
dialect, and its names are words that are not reserved there, its literals texts that are each one
token of their kind. Then the first significant token of what is printed, whatever follows, neither
opens a block nor begins a function. Every arrow function with an expression for its body, however
deep it lies, is printed there with its body right after the arrow, and the first significant token
of the body, on its own or with all that follows it, does not open a block. -/
theorem statement_opening {d : Dialect} {e : Expr} {page : Emitter} {text : String}
    (hlexical : ∀ n ∈ e.nodes, n.Lexical d)
    (htext : (Statement.doc d.surface false (.expr e)).Prints page text.toList) :
    (∀ rest, BeginsAs d (fun k => k ≠ d.blockOpen ∧ k ≠ d.functionWord) (text ++ rest)) ∧
    ∀ params body, Node.expr (.arrow params body) ∈ e.nodes →
      ∃ page' before shown after, (body.arrowBody d.surface).Prints page' shown.toList ∧
        text = before ++ ("(" ++ ", ".intercalate params ++ ") => ") ++ shown ++ after ∧
        BeginsAs d (· ≠ d.blockOpen) shown ∧
        ∀ rest, BeginsAs d (· ≠ d.blockOpen) (shown ++ after ++ rest) := by
  constructor
  · intro rest
    obtain ⟨hne, hbegins⟩ := Statement.begins_expr e hlexical false _ _ _ htext.blanks htext.writes
    have hneutral := hbegins rest.toList trivial
    rw [← String.toList_append] at hneutral
    exact beginsAs_of_classify (by simp_all) hneutral.significant
      ⟨hneutral.notBlock, hneutral.notFunction⟩
  · intro params body hmem
    -- the arrow function is printed somewhere in the statement, and its body with it
    have hholds : (Statement.doc d.surface false (.expr e)).Holds Anything
        ((Expr.arrow params body).ShownAs d) :=
      holds_expr (Expr.holds_doc e ⟨hlexical, hmem⟩) false
    obtain ⟨before, whole, after, hwhole, -, hparts, hafter⟩ := hholds _ _ htext
    obtain ⟨page', shown, rfl, hprints, hne, hopens⟩ := hwhole.arrow
    have hbegins (rest : String) (hrest : Boundary rest.toList) :
        BeginsAs d (· ≠ d.blockOpen) (String.ofList shown ++ rest) := by
      have hopen := hopens rest.toList hrest
      have hlist : (String.ofList shown ++ rest).toList = shown ++ rest.toList := by simp
      rw [← hlist] at hopen
      exact beginsAs_of_classify (by simp [hne]) hopen.1 hopen.2
    refine ⟨page', String.ofList before, String.ofList shown, String.ofList after,
      by simpa using hprints, ?_, ?_, fun rest => ?_⟩
    · rw [← String.toList_inj, hparts]
      simp
    · simpa using hbegins "" trivial
    · rw [String.append_assoc]
      exact hbegins _ (by simpa using hafter rest.toList trivial)

/-- A body that begins with an object. -/
def indexedObject : Expr :=
  .binary .add (.index (.object []) (.literal (.fixnum 0 "0"))) (.symbol "x")

/-- A call that begins with an object, whose member is an arrow function with that body. -/
def calledMember : Expr :=
  .call (.binary .dot (.object [.pair (.symbol "f") (.arrow ["x"] indexedObject)]) (.symbol "f"))
    (.list [.literal (.regexp "/a/" "/a/")] false)

/-- What it is printed as, with parentheses around all of it and around the body. -/
def calledMemberText : String :=
  "(\x7b f: (x) => (\x7b \x7d[0] + x) \x7d.f(/a/));"

/-- The names and literals of `calledMember` are spelled as tokens. -/
theorem lexical_calledMember : ∀ n ∈ calledMember.nodes, n.Lexical .brace := by
  have hzero : LexesAlone .brace "0" .fixnum := lexesAlone_of_classify rfl
  have hregexp : LexesAlone .brace "/a/" .regexp := lexesAlone_of_classify rfl
  have hmember : IsWord "f" := by decide
  have hname : IsWord "x" ∧ Dialect.brace.keyword? "x" = none := by decide
  simp [calledMember, indexedObject, Expr.nodes, Expr.nodesOf, Entry.nodes, Entry.nodesOf,
    Node.Lexical, hmember, hname, hzero, hregexp, Literal.text, Literal.kind]

/-- `calledMember` is printed as `calledMemberText`. -/
theorem prints_calledMember :
    (Statement.doc Dialect.brace.surface false (.expr calledMember)).Prints (.ofSink .unlimited)
      calledMemberText.toList where
  limit := rfl
  blanks := by simp [Emitter.ofSink]
  finished := by decide +kernel
  wrote := ⟨rfl, rfl, by decide +kernel⟩

theorem statement_opening_calledMember :
    (∀ n ∈ calledMember.nodes, n.Lexical .brace) ∧
    (Statement.doc Dialect.brace.surface false (.expr calledMember)).Prints (.ofSink .unlimited)
      calledMemberText.toList ∧
    (∀ rest, BeginsAs .brace (fun k => k ≠ .punct .lbrace ∧ k ≠ .keyword .functionKw)
      (calledMemberText ++ rest)) ∧
    ∃ before shown after, calledMemberText =
        before ++ ("(" ++ ", ".intercalate ["x"] ++ ") => ") ++ shown ++ after ∧
      BeginsAs .brace (· ≠ .punct .lbrace) shown := by
  obtain ⟨hstatement, harrow⟩ := statement_opening lexical_calledMember prints_calledMember
  have hmem : Node.expr (.arrow ["x"] indexedObject) ∈ calledMember.nodes := by
    simp [calledMember, Expr.nodes, Entry.nodes, Entry.nodesOf]
  obtain ⟨-, before, shown, after, -, htext, hbegins, -⟩ := harrow ["x"] indexedObject hmem
  exact ⟨lexical_calledMember, prints_calledMember, hstatement, before, shown, after, htext,
    hbegins⟩

end Diglot

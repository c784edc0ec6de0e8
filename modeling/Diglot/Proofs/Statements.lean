import Diglot.Proofs.Operators
import Diglot.Proofs.Trailer

/-!
# Statements and declarations read back

What stands in a block, as it is printed and read back. Every declaration begins on a line of its
own, so that a comment before it ends where it should; and it ends with a token after which nothing
goes on, except for a conditional of the brace dialect, which `else` must not follow.

- `EntersAs.shorthand`, `EntersAs.pair`: object entries.
- `DeclarationsAs`, `StatementAs`, `DeclarationAs`: the parts of a block.
- `ConditionalAs`: a conditional after its first word, which differs between the one that begins a
  statement and one that goes on from another.
-/

namespace Diglot

open Rules Lexeme

variable {t : Dialect}

/-! ## Object entries -/

/-- A key is cut as the token that `Key.ofToken?` has made it from. -/
theorem cuts_key {k : TokenKind} {text : String} {key : Key} (hk : Key.ofToken? text k = some key)
    (hnames : ∀ n ∈ key.names, IsName t n) (h : key.Genuine t) :
    (Doc.text key.text).Cuts t Boundary [.token k text] := by
  cases k <;> cases hk
  · exact cuts_token h.1 rfl (ne_divide_of_string (t := t) h) fun _ _ =>
      classify_string_append t h
  · show (Doc.text text).Cuts t Boundary [.name text]
    exact cuts_name (hnames text (by simp [Key.names]))

/-- An entry that is only a key is read back, since no colon follows. -/
theorem EntersAs.shorthand {k : TokenKind} {text : String} {key : Key}
    (hk : Key.ofToken? text k = some key)
    (hcuts : (Doc.text key.text).Cuts t Boundary [.token k text]) :
    EntersAs t (.shorthand key) [.token k text] where
  cuts := by
    rw [Entry.doc]
    exact hcuts
  reads S hS := by
    refine .entryShort (.token _ _ _) hk ?_
    rcases hS with hS | hS <;> rw [hS] <;> decide

/-- An entry with a value is read back. -/
theorem EntersAs.pair {k : TokenKind} {text : String} {key : Key}
    (hk : Key.ofToken? text k = some key)
    (hcuts : (Doc.text key.text).Cuts t Boundary [.token k text]) {v : Expr} {P : Tape}
    (hv : AssignsAs t v P) :
    EntersAs t (.pair key v) (.token k text :: .sign .colon :: P) where
  cuts := by
    have hlead : (Doc.text ": ").Leads Anything Boundary :=
      Doc.leads_boundary rfl (by decide) (by decide)
    rw [Entry.doc, Expr.fitted_of_le hv.binds]
    exact (hcuts.append colon_cuts hlead).then hv.cuts
  reads S hS := by
    refine .entryPair (.token _ _ _) hk .cons (hv.reads S ?_)
    rcases hS with hS | hS <;> rw [hS] <;> rfl

/-! ## Blocks -/

/-- Whether a document begins with a line break, if anything comes before it: `Doc.freshLine` or
`Doc.lineFeed`. -/
def Doc.startsLine : Doc → Bool
  | .freshLine | .lineFeed => true
  | .seq a _ => a.startsLine
  | _ => false

/-- A document that `startsLine` begins with a line break or with nothing but the end. -/
theorem Doc.leads_of_startsLine {a : Doc} (h : a.startsLine = true) {ok : List Char → Prop} :
    a.Leads ok LineEnd := by
  induction a generalizing ok with
  | freshLine => exact Doc.freshLine_leads_lineEnd
  | lineFeed => exact Doc.leads_lineFeed lineEnd_newline
  | seq a b iha _ => exact (iha h).append Doc.leads_anything
  | _ => exact absurd h (by simp [startsLine])

/-- Whatever stands in a block begins on a line of its own, so it `Leads` to a `LineEnd`. -/
theorem Declaration.leads_doc (s : Surface) (x : Declaration) :
    (x.doc s).Leads LineEnd LineEnd := by
  cases x with
  | comments cs =>
    cases cs with
    | nil => exact Doc.leads_empty
    | cons c cs => exact Doc.leads_of_startsLine rfl
  | var keyword name value exported => cases value <;> exact Doc.leads_of_startsLine rfl
  | _ => exact Doc.leads_of_startsLine rfl

/-- So does a whole block; an empty one leaves the `LineEnd` that follows it. -/
theorem Declaration.leads_docs (s : Surface) (xs : Block) :
    (Declaration.docs s xs).Leads LineEnd LineEnd := by
  induction xs with
  | nil => exact Doc.leads_empty
  | cons x xs ih =>
    rw [Declaration.docs]
    exact (x.leads_doc s).append ih

/-- Declarations are printed as some pieces, and read back by `.declarations` before a token
that begins none. -/
structure DeclarationsAs (t : Dialect) (body : Block) (P : Tape) : Prop where
  cuts : (Declaration.docs t.surface body).Cuts t LineEnd P
  reads : ∀ S : Tape, startsDeclaration t S.kind = false → S.waiting = [] →
    (t = .brace → S.kind ≠ .keyword .elseKw) →
    Reads t .declarations (P ++ S) (Declaration.settles t.surface body) S

theorem leads_boundary_of_lineEnd {a : Doc} (h : a.Leads LineEnd LineEnd) :
    a.Leads LineEnd Boundary :=
  fun indent T rest hindent hT hrest => LineEnd.boundary (h indent T rest hindent hT hrest)

/-- Declarations after the beginning of a block, as `Doc.indented` prints them. -/
theorem DeclarationsAs.cuts_indented {body : Block} {P : Tape} (h : DeclarationsAs t body P)
    {head : Doc} {H : Tape} (hhead : head.Cuts t Boundary H) :
    (head ++ Doc.indented "  " (Declaration.docs t.surface body)).Cuts t LineEnd (H ++ P) :=
  hhead.append (h.cuts.indented blanks_two)
    (leads_boundary_of_lineEnd ((Declaration.leads_docs _ _).indented blanks_two))

/-- Between the marks of the dialect declarations are a block. -/
theorem DeclarationsAs.blockAs {body : Block} {P : Tape} (h : DeclarationsAs t body P) :
    BlockAs t body (.token t.blockOpen t.surface.blockOpen ::
      (P ++ [.token t.blockClose t.surface.blockClose])) where
  cuts := by
    have hbreak : Doc.freshLine.Leads Anything LineEnd := Doc.freshLine_leads_lineEnd
    exact (((h.cuts_indented cuts_blockOpen).append (Q := []) Doc.cuts_freshLine hbreak).then
      cuts_blockClose).pieces (by simp)
  opens := Tape.opens_cons _ _ _
  reads S := by
    have hbody := h.reads (.token t.blockClose t.surface.blockClose :: S)
      (by cases t <;> rfl) rfl (by rintro rfl; nofun)
    simp only [List.cons_append, List.append_assoc, List.nil_append]
    exact .block .cons hbody .cons

/-- A block between braces, with the marks written out as the brace dialect has them. -/
theorem DeclarationsAs.reads_block {body : Block} {P : Tape} (h : DeclarationsAs .brace body P)
    (S : Tape) :
    Reads .brace .block (.sign .lbrace :: (P ++ .sign .rbrace :: S))
      (Declaration.settles Dialect.brace.surface body) S := by
  have hread := h.blockAs.reads S
  simp only [List.cons_append, List.append_assoc, List.nil_append] at hread
  exact hread

/-! ## Conditionals -/

/-- The word that begins a conditional: `elsif` in the block dialect if it goes on from another,
or else `if`. -/
def ifWord : Dialect → (further : Bool) → Piece
  | .block, true => .word .elsifKw
  | _, _ => .word .ifKw

/-- The end of a conditional: in the block dialect, of one that begins a statement, the word
`end`. -/
def ifEnd : Dialect → (further : Bool) → Tape
  | .block, false => [.word .endKw]
  | _, _ => []

/-- A conditional is printed as some pieces between its `ifWord` and its `ifEnd`, and read back
after its first word. -/
structure ConditionalAs (t : Dialect) (st : Statement) (P : Tape) : Prop where
  cuts : ∀ further, (st.doc t.surface further).Cuts t LineEnd
    (ifWord t further :: (P ++ ifEnd t further))
  reads : ∀ S : Tape, (t = .brace → S.kind ≠ .keyword .elseKw) →
    Reads t .conditional (P ++ (ifEnd t false ++ S)) (st.settle t.surface) S

/-- The pieces of a test and a branch. -/
def branchPieces (Q B : Tape) : Dialect → Tape
  | .brace =>
    .sign .lparen :: (Q ++ .sign .rparen :: .sign .lbrace :: (B ++ [.sign .rbrace]))
  | .block => Q ++ .word .thenKw :: B

/-- What may follow a branch: after the brace that closes it any `Boundary`, or else a
`LineEnd`. -/
def AfterBranch : Dialect → List Char → Prop
  | .brace => Boundary
  | .block => LineEnd

theorem LineEnd.afterBranch {rest : List Char} (h : LineEnd rest) : AfterBranch t rest := by
  cases t with
  | brace => exact LineEnd.boundary h
  | block => exact h

/-- `Print.branch` is cut as the first word and `branchPieces`. -/
theorem cuts_branch {test : Expr} {Q : Tape} (htest : ExprAs t test Q) {body : Block} {B : Tape}
    (hbody : DeclarationsAs t body B) (further : Bool) :
    (Print.branch t.surface further (test.doc t.surface) (Declaration.docs t.surface body)).Cuts t
      (AfterBranch t) (ifWord t further :: branchPieces Q B t) := by
  cases t with
  | brace =>
    have hif : (Doc.text "if ").Cuts .brace Anything [.word .ifKw] := cuts_wordSpace rfl (by decide)
    have hheader := (hif.then (cuts_grouping htest.cuts)).anywhere.space
    exact (hheader.then hbody.blockAs.cuts).pieces (by simp [branchPieces, ifWord,
      Dialect.blockOpen, Dialect.blockClose, Dialect.surface, Punct.spelling])
  | block =>
    have hword : ((if further then "elsif" else "if") ++ (" " : Doc)).Cuts .block Anything
        [ifWord .block further] := by
      cases further with
      | true => exact (cuts_word (w := .elsifKw) (by decide)).space
      | false => exact (cuts_word (w := .ifKw) (by decide)).space
    have hthen : (Doc.text "then").Cuts .block Boundary [.word .thenKw] :=
      cuts_word (w := .thenKw) (by decide)
    have hhead := (hword.then htest.cuts).space.then hthen
    exact (hbody.cuts_indented hhead).pieces (by simp [branchPieces])

/-- `Print.conditionalEnd` is cut as `ifEnd`. -/
theorem cuts_conditionalEnd {a : Doc} {P : Tape} (h : a.Cuts t LineEnd P) (further : Bool) :
    (a ++ Print.conditionalEnd t.surface further).Cuts t LineEnd (P ++ ifEnd t further) := by
  have hempty := h.append (Q := []) Doc.cuts_empty Doc.leads_empty
  cases t with
  | brace => exact hempty
  | block =>
    cases further with
    | true => exact hempty
    | false =>
      have hend : (Doc.freshLine ++ Doc.text "end").Cuts .block LineEnd [.word .endKw] :=
        Doc.cuts_freshLine.then
          ((cuts_word (w := .endKw) (by decide)).imp fun _ => LineEnd.boundary)
      exact h.append hend (Doc.leads_of_startsLine rfl)

section Branches

variable {test : Expr} {Q : Tape} {body : Block} {B : Tape}

/-- A conditional with one branch is read back. -/
theorem ConditionalAs.ifThen (htest : ExprAs t test Q) (hbody : DeclarationsAs t body B) :
    ConditionalAs t (.ifThen test body none) (branchPieces Q B t) where
  cuts further := by
    have hbranch := (cuts_branch htest hbody further).imp fun _ => LineEnd.afterBranch
    rw [Statement.doc, Expr.fitted_comma]
    exact cuts_conditionalEnd hbranch further
  reads S hS := by
    rw [Statement.settle]
    cases t with
    | brace =>
      have htest := htest.reads (.sign .rparen :: .sign .lbrace :: (B ++ .sign .rbrace :: S)) rfl
        nofun
      simp only [branchPieces, ifEnd, List.cons_append, List.append_assoc, List.nil_append]
      exact .braceIf rfl .cons htest .cons (hbody.reads_block S) (hS rfl)
    | block =>
      have htest := htest.reads (.word .thenKw :: (B ++ .word .endKw :: S)) rfl nofun
      have hbody := hbody.reads (.word .endKw :: S) rfl rfl nofun
      simp only [branchPieces, ifEnd, List.cons_append, List.append_assoc, List.nil_append]
      exact .blockIf rfl htest .cons hbody .cons

/-- The pieces of a last branch, after the word `else`. -/
def elsePieces (B : Tape) : Dialect → Tape
  | .brace => .word .elseKw :: .sign .lbrace :: (B ++ [.sign .rbrace])
  | .block => .word .elseKw :: B

/-- `Print.elseBlock` is cut as `elsePieces`. -/
theorem cuts_elseBlock {a : Doc} {P : Tape} (h : a.Cuts t (AfterBranch t) P)
    (hbody : DeclarationsAs t body B) :
    (a ++ Print.elseBlock t.surface (Declaration.docs t.surface body)).Cuts t LineEnd
      (P ++ elsePieces B t) := by
  cases t with
  | brace =>
    have helse : (Doc.text " else ").Cuts .brace Anything [.word .elseKw] :=
      cuts_spaceWordSpace rfl (by decide)
    have hblock := helse.then hbody.blockAs.cuts
    exact (h.append hblock ((leads_space rfl).append Doc.leads_anything)).imp
      fun _ => LineEnd.boundary
  | block =>
    have helse : (Doc.freshLine ++ Doc.text "else").Cuts .block Boundary [.word .elseKw] :=
      Doc.cuts_freshLine.then (cuts_word (w := .elseKw) (by decide))
    exact h.append (hbody.cuts_indented helse) (Doc.leads_of_startsLine rfl)

/-- A conditional with two branches is read back. -/
theorem ConditionalAs.ifElse {other : Block} {C : Tape} (htest : ExprAs t test Q)
    (hbody : DeclarationsAs t body B) (hother : DeclarationsAs t other C) :
    ConditionalAs t (.ifThen test body (some (.block other)))
      (branchPieces Q B t ++ elsePieces C t) where
  cuts further := by
    have hbranch := cuts_branch htest hbody further
    rw [Statement.doc, Expr.fitted_comma]
    exact (cuts_conditionalEnd (cuts_elseBlock hbranch hother) further).pieces (by simp)
  reads S hS := by
    rw [Statement.settle, Statement.settle]
    cases t with
    | brace =>
      have htest := htest.reads (.sign .rparen :: .sign .lbrace :: (B ++ .sign .rbrace ::
        .word .elseKw :: .sign .lbrace :: (C ++ .sign .rbrace :: S))) rfl nofun
      simp only [branchPieces, elsePieces, ifEnd, List.cons_append, List.append_assoc,
        List.nil_append]
      exact .braceIfElse rfl .cons htest .cons (hbody.reads_block _) .cons nofun
        (hother.reads_block S)
    | block =>
      -- no mark closes a branch here: the next word does, since it begins no declaration
      have htest := htest.reads (.word .thenKw :: (B ++ .word .elseKw :: (C ++ .word .endKw :: S)))
        rfl nofun
      have hbody := hbody.reads (.word .elseKw :: (C ++ .word .endKw :: S)) rfl rfl nofun
      have hother := hother.reads (.word .endKw :: S) rfl rfl nofun
      simp only [branchPieces, elsePieces, ifEnd, List.cons_append, List.append_assoc,
        List.nil_append]
      exact .blockIfElse rfl htest .cons hbody .cons hother .cons

/-- The words before a conditional that goes on from another, and its pieces. -/
def elseIfPieces (P : Tape) : Dialect → Tape
  | .brace => .word .elseKw :: .word .ifKw :: P
  | .block => .word .elsifKw :: P

/-- `Print.beforeElsif` and a conditional are cut as `elseIfPieces`. -/
theorem cuts_elseIf {a b : Doc} {A P : Tape} (h : a.Cuts t (AfterBranch t) A)
    (hb : b.Cuts t LineEnd (ifWord t true :: (P ++ ifEnd t true))) :
    (a ++ Print.beforeElsif t.surface ++ b).Cuts t LineEnd (A ++ elseIfPieces P t) := by
  cases t with
  | brace =>
    have helse : (Doc.text " else ").Cuts .brace Anything [.word .elseKw] :=
      cuts_spaceWordSpace rfl (by decide)
    exact ((h.append helse (leads_space rfl)).then hb).pieces
      (by simp [elseIfPieces, ifWord, ifEnd])
  | block =>
    have hbreak : Doc.freshLine.Leads Anything LineEnd := Doc.freshLine_leads_lineEnd
    exact ((h.append (Q := []) Doc.cuts_freshLine hbreak).then hb).pieces
      (by simp [elseIfPieces, ifWord, ifEnd])

/-- A conditional that goes on with another one is read back, the `ifEnd` of the first being the
end of both. -/
theorem ConditionalAs.ifElseIf {test' : Expr} {body' : Block} {other : Option Statement} {P : Tape}
    (htest : ExprAs t test Q) (hbody : DeclarationsAs t body B)
    (hother : ConditionalAs t (.ifThen test' body' other) P) :
    ConditionalAs t (.ifThen test body (some (.ifThen test' body' other)))
      (branchPieces Q B t ++ elseIfPieces P t) where
  cuts further := by
    have hbranch := cuts_branch htest hbody further
    rw [Statement.doc, Expr.fitted_comma]
    exact (cuts_conditionalEnd (cuts_elseIf hbranch (hother.cuts true)) further).pieces (by simp)
  reads S hS := by
    have hread := hother.reads S hS
    rw [Statement.settle]
    cases t with
    | brace =>
      have htest := htest.reads (.sign .rparen :: .sign .lbrace :: (B ++ .sign .rbrace ::
        .word .elseKw :: .word .ifKw :: (P ++ S))) rfl nofun
      simp only [branchPieces, elseIfPieces, ifEnd, List.cons_append, List.append_assoc,
        List.nil_append] at hread ⊢
      exact .braceIfElseIf rfl .cons htest .cons (hbody.reads_block _) .cons .cons hread
    | block =>
      have htest := htest.reads (.word .thenKw :: (B ++ .word .elsifKw :: (P ++ .word .endKw :: S)))
        rfl nofun
      have hbody := hbody.reads (.word .elsifKw :: (P ++ .word .endKw :: S)) rfl rfl nofun
      simp only [branchPieces, elseIfPieces, ifEnd, List.cons_append, List.append_assoc,
        List.nil_append] at hread ⊢
      exact .blockIfElsif rfl htest .cons hbody .cons hread

end Branches

/-! ## Statements -/

/-- The tokens that begin a `.statement` rather than another declaration. -/
structure BeginsStatement (t : Dialect) (k : TokenKind) : Prop where
  notExport : k ≠ .keyword .exportKw
  notAsync : k ≠ .keyword .asyncKw
  notFunction : k ≠ t.functionWord
  notVariable : varKeyword? k = none

/-- A statement is printed as some pieces, and read back by `.statement` unless `else` follows
in the brace dialect. -/
structure StatementAs (t : Dialect) (st : Statement) (P : Tape) : Prop where
  cuts : (st.doc t.surface false).Cuts t LineEnd P
  opens : P.Opens
  begins : BeginsStatement t P.kind
  reads : ∀ S : Tape, (t = .brace → S.kind ≠ .keyword .elseKw) →
    Reads t .statement (P ++ S) (st.settle t.surface) S

theorem beginsStatement_word {w : Keyword}
    (hw : w ∈ [.ifKw, .whileKw, .forKw, .throwKw, .returnKw]) :
    BeginsStatement t (.keyword w) := by
  simp only [List.mem_cons, List.not_mem_nil, or_false] at hw
  rcases hw with rfl | rfl | rfl | rfl | rfl <;> cases t <;>
  exact ⟨by decide, by decide, by decide, rfl⟩

/-- A token that `startsExpression` begins a statement unless it begins a function. -/
theorem beginsStatement_of_startsExpression {k : TokenKind} (hk : startsExpression t k = true)
    (hf : k ≠ t.functionWord) : BeginsStatement t k := by
  refine ⟨?_, ?_, hf, ?_⟩
  · rintro rfl
    cases t <;> exact absurd hk (by decide)
  · rintro rfl
    cases t <;> exact absurd hk (by decide)
  · unfold varKeyword?
    split <;> first | rfl | (cases t <;> exact absurd hk (by decide))

/-- What comes after pieces that open with a token does not change the `kind` that is read
first. -/
theorem Tape.Opens.kind_append {P : Tape} (h : P.Opens) (S : Tape) : (P ++ S).kind = P.kind := by
  obtain ⟨k, text, P', rfl⟩ := h
  rfl

theorem semicolon_cuts {ok : List Char → Prop} : (Doc.text ";").Cuts t ok [.sign .semicolon] :=
  (cuts_sign .semicolon rfl).anywhere

theorem semicolon_leads {ok : List Char → Prop} : (Doc.text ";").Leads ok Boundary :=
  Doc.leads_boundary rfl (by decide) (by decide)

/-- After its first word a conditional is a statement. -/
theorem ConditionalAs.statementAs {st : Statement} {P : Tape} (h : ConditionalAs t st P) :
    StatementAs t st (.word .ifKw :: (P ++ ifEnd t false)) where
  cuts := (h.cuts false).pieces (by cases t <;> rfl)
  opens := Tape.opens_cons _ _ _
  begins := beginsStatement_word (by decide)
  reads S hS := by
    rw [List.cons_append, List.append_assoc]
    exact .ifStatement .cons (h.reads S hS)

/-- The pieces of the header of a loop, in parentheses in the brace dialect. -/
def headerPieces (Q : Tape) : Dialect → Tape
  | .brace => .sign .lparen :: (Q ++ [.sign .rparen])
  | .block => Q

theorem cuts_nothing {ok : List Char → Prop} : (Doc.text "").Cuts t ok [] := by
  rintro _ _ _ rest _ rfl _ _
  exact Cut.fares_of_eq ⟨rfl, fun h => absurd h (by decide)⟩ rfl

theorem cuts_headerOpen : (Doc.text t.surface.headerOpen).Cuts t Anything
    (match t with | .brace => [.sign .lparen] | .block => []) := by
  cases t with
  | brace => exact lparen_cuts
  | block => exact cuts_nothing

/-- `headerClose` prints the parenthesis that `headerPieces` ends with, or nothing. -/
theorem cuts_headerClose {a : Doc} {P : Tape} (h : a.Cuts t Boundary P) :
    (a ++ Doc.text t.surface.headerClose).Cuts t Boundary
      (P ++ match t with | .brace => [.sign .rparen] | .block => []) := by
  cases t with
  | brace => exact h.append rparen_cuts.anywhere rparen_leads
  | block => exact h.append cuts_nothing (Doc.leads_text fun _ hrest => hrest)

/-- A loop with a test is read back. -/
theorem StatementAs.whileLoop {test : Expr} {Q : Tape} (htest : ExprAs t test Q) {body : Block}
    {B : Tape} (hbody : BlockAs t body B) :
    StatementAs t (.whileLoop test body) (.word .whileKw :: (headerPieces Q t ++ B)) where
  cuts := by
    have hwhile : (Doc.text "while ").Cuts t Anything [.word .whileKw] :=
      cuts_wordSpace rfl (by cases t <;> decide)
    have hheader := cuts_headerClose (cuts_headerOpen.then htest.cuts)
    rw [Statement.doc, Expr.fitted_comma]
    refine (((hwhile.then hheader).space.then hbody.cuts).imp fun _ => LineEnd.boundary).pieces ?_
    cases t <;> simp [headerPieces]
  opens := Tape.opens_cons _ _ _
  begins := beginsStatement_word (by decide)
  reads S _ := by
    rw [Statement.settle]
    cases t with
    | brace =>
      have htest := htest.reads (.sign .rparen :: (B ++ S)) rfl nofun
      simp only [headerPieces, List.cons_append, List.append_assoc, List.nil_append]
      exact .braceWhile rfl .cons .cons htest .cons (hbody.reads S)
    | block =>
      have hblock := hbody.reads S
      -- the test ends where the word of the block begins, which goes on from no expression
      have htest := htest.reads (B ++ S) (by rw [hblock.kind_of_block]; rfl)
        (by rw [hblock.kind_of_block]; decide)
      simp only [headerPieces, List.cons_append, List.append_assoc]
      exact .blockWhile rfl .cons htest hblock

/-! ### Loops over collections -/

/-- The reserved word that declares variables, as a `Keyword`. -/
def VarKeyword.word : VarKeyword → Keyword
  | .letKw => .letKw
  | .varKw => .varKw
  | .constKw => .constKw

theorem varKeyword?_word (kw : VarKeyword) : varKeyword? (.keyword kw.word) = some kw := by
  cases kw <;> rfl

/-- `VarKeyword.spelling` is cut as `VarKeyword.word`. -/
theorem cuts_varKeyword (kw : VarKeyword) :
    (Doc.text kw.spelling).Cuts t Boundary [.word kw.word] := by
  cases kw with
  | letKw => exact cuts_word (w := .letKw) (by cases t <;> decide)
  | varKw => exact cuts_word (w := .varKw) (by cases t <;> decide)
  | constKw => exact cuts_word (w := .constKw) (by cases t <;> decide)

/-- The pieces of names with commas between them. -/
def namePieces (ns : List String) : Tape :=
  Tape.commas (ns.map fun n => [.name n])

/-- The pieces of the names that a loop declares, after the word that declares them. -/
def loopNames (ns : List String) (bracketed : Bool) : Tape :=
  if bracketed then .sign .lbrack :: (namePieces ns ++ [.sign .rbrack]) else namePieces ns

/-- `Print.names`, in brackets or not, is cut as `loopNames`. -/
theorem cuts_loopNames {ns : List String} (h : ∀ n ∈ ns, IsName t n) (bracketed : Bool) :
    (if bracketed then "[" ++ Print.names ns ++ "]" else Print.names ns).Cuts t Boundary
      (loopNames ns bracketed) := by
  cases bracketed with
  | true =>
    have hopen : (Doc.text "[").Cuts t Anything [.sign .lbrack] := cuts_sign .lbrack rfl
    have hclose : (Doc.text "]").Cuts t Anything [.sign .rbrack] := cuts_sign .rbrack rfl
    exact ((hopen.then (cuts_names h)).append hclose rbrack_leads).anywhere
  | false => exact cuts_names h

/-- The pieces of the word that a loop declares its names with. -/
def loopWord (kw : Option VarKeyword) : Tape :=
  kw.toList.map fun k => .word k.word

theorem cuts_loopWord (kw : Option VarKeyword) :
    (match kw with | some k => k.spelling ++ (" " : Doc) | none => (.empty : Doc)).Cuts t Anything
      (loopWord kw) := by
  cases kw with
  | some k => exact (cuts_varKeyword k).space
  | none => exact Doc.cuts_empty

theorem namePieces_cons (n : String) (ns : List String) :
    ∃ P, namePieces (n :: ns) = .name n :: P := by
  cases ns <;> exact ⟨_, rfl⟩

/-- The header of a loop over a collection is read back, with or without a declaring word and
brackets. -/
theorem reads_loopHeader (kw : Option VarKeyword) {ns : List String} (hne : ns ≠ [])
    (bracketed : Bool) {e : Expr} {Q : Tape} (he : ExprAs t e Q) {S : Tape}
    (hS : S.kind.prolongs = false) (hcomma : S.kind ≠ .punct .comma) :
    Reads t .loopHeader (loopWord kw ++ (loopNames ns bracketed ++ .word .ofKw :: (Q ++ S)))
      (kw, ns, bracketed, e.settle t.surface) S := by
  have hof := he.reads S hS hcomma
  obtain ⟨n, ns', rfl⟩ := List.exists_cons_of_ne_nil hne
  have hfirst (R : Tape) : (namePieces (n :: ns') ++ R).kind = .symbol := by
    obtain ⟨P, hP⟩ := namePieces_cons n ns'
    rw [hP]
    rfl
  have hnames {R : Tape} (hs : R.kind ≠ .symbol) (hc : R.kind ≠ .punct .comma) :
      Reads t .names (namePieces (n :: ns') ++ R) (n :: ns') R :=
    reads_names _ hs hc
  -- the word is taken if it is there, and neither a bracket nor a name is one
  have hword (R : Tape) (hR : varKeyword? R.kind = none) :
      Perhaps varKeyword? (loopWord kw ++ R) kw R := by
    cases kw with
    | some k => exact .some .cons (varKeyword?_word k)
    | none => exact .none hR
  cases bracketed with
  | true =>
    simp only [loopNames, if_true, List.cons_append, List.append_assoc, List.nil_append]
    exact .loopHeader (hword _ rfl) (.yes .cons) (hnames nofun nofun) hne (.yes .cons) .cons hof
  | false =>
    simp only [loopNames, Bool.false_eq_true, if_false]
    exact .loopHeader (hword _ (by rw [hfirst]; rfl)) (.no (by rw [hfirst]; decide))
      (hnames nofun nofun) hne .no .cons hof

/-- A loop over a collection is read back. It has to declare a name. -/
theorem StatementAs.forLoop {kw : Option VarKeyword} {ns : List String}
    (hns : ∀ n ∈ ns, IsName t n) (hne : ns ≠ []) {e : Expr} {Q : Tape} (he : ExprAs t e Q)
    {body : Block} {B : Tape} (hbody : BlockAs t body B) (bracketed : Bool) :
    StatementAs t (.forLoop kw ns e body bracketed)
      (.word .forKw ::
        (headerPieces (loopWord kw ++ (loopNames ns bracketed ++ .word .ofKw :: Q)) t ++ B)) where
  cuts := by
    have hfor : (Doc.text "for ").Cuts t Anything [.word .forKw] :=
      cuts_wordSpace rfl (by cases t <;> decide)
    have hof : (Doc.text " of ").Cuts t Anything [.word .ofKw] :=
      cuts_spaceWordSpace rfl (by cases t <;> decide)
    have hnames := ((hfor.then cuts_headerOpen).then (cuts_loopWord kw)).then
      (cuts_loopNames hns bracketed)
    have hheader := cuts_headerClose ((hnames.append hof (leads_space rfl)).then he.cuts)
    have hloop := ((hheader.space.then hbody.cuts).imp fun _ => LineEnd.boundary).pieces
      (Q := .word .forKw ::
        (headerPieces (loopWord kw ++ (loopNames ns bracketed ++ .word .ofKw :: Q)) t ++ B))
      (by cases t <;> simp [headerPieces])
    cases kw <;> rw [Statement.doc, Expr.fitted_comma] <;> exact hloop
  opens := Tape.opens_cons _ _ _
  begins := beginsStatement_word (by decide)
  reads S _ := by
    rw [Statement.settle]
    have hblock := hbody.reads S
    cases t with
    | brace =>
      have hheader := reads_loopHeader kw hne bracketed he
        (S := .sign .rparen :: (B ++ S)) rfl nofun
      simp only [headerPieces, List.cons_append, List.append_assoc, List.nil_append]
      exact .braceFor rfl .cons .cons hheader .cons hblock
    | block =>
      have hheader := reads_loopHeader kw hne bracketed he (S := B ++ S)
        (by rw [hblock.kind_of_block]; rfl) (by rw [hblock.kind_of_block]; decide)
      simp only [headerPieces, List.cons_append, List.append_assoc]
      exact .blockFor rfl .cons hheader hblock

/-! ### Simple statements -/

/-- `throw` with a value is read back. -/
theorem StatementAs.throw {e : Expr} {P : Tape} (h : ExprAs t e P) :
    StatementAs t (.throw e) (.word .throwKw :: (P ++ [.sign .semicolon])) where
  cuts := by
    have hthrow : (Doc.text "throw ").Cuts t Anything [.word .throwKw] :=
      cuts_wordSpace rfl (by cases t <;> decide)
    rw [Statement.doc, Expr.fitted_comma]
    exact (hthrow.then h.cuts).append semicolon_cuts semicolon_leads
  opens := Tape.opens_cons _ _ _
  begins := beginsStatement_word (by decide)
  reads S _ := by
    have hread := h.reads (.sign .semicolon :: S) rfl nofun
    simp only [Statement.settle, List.cons_append, List.append_assoc, List.nil_append]
    exact .throw .cons hread (.endSemicolon .cons)

/-- `return` without a value is read back, since a semicolon begins no expression. -/
theorem StatementAs.retNone : StatementAs t (.ret none) [.word .returnKw, .sign .semicolon] where
  cuts := by
    have hreturn : (Doc.text "return").Cuts t Boundary [.word .returnKw] :=
      cuts_word (w := .returnKw) (by cases t <;> decide)
    exact hreturn.append semicolon_cuts semicolon_leads
  opens := Tape.opens_cons _ _ _
  begins := beginsStatement_word (by decide)
  reads S _ := .retNone .cons (by cases t <;> rfl) (.endSemicolon .cons)

theorem StatementAs.retSome {e : Expr} {P : Tape} (h : ExprAs t e P) :
    StatementAs t (.ret (some e)) (.word .returnKw :: (P ++ [.sign .semicolon])) where
  cuts := by
    have hreturn : (Doc.text "return").Cuts t Boundary [.word .returnKw] :=
      cuts_word (w := .returnKw) (by cases t <;> decide)
    rw [Statement.doc, Expr.fitted_comma]
    exact (hreturn.space.then h.cuts).append semicolon_cuts semicolon_leads
  opens := Tape.opens_cons _ _ _
  begins := beginsStatement_word (by decide)
  reads S _ := by
    have hread := h.reads (.sign .semicolon :: S) rfl nofun
    simp only [Statement.settle, List.cons_append, List.append_assoc, List.nil_append]
    exact .retSome .cons (hread.startsExpression rfl) hread (.endSemicolon .cons)

/-- A block as a statement is read back. -/
theorem StatementAs.block {body : Block} {B : Tape} (h : BlockAs t body B) :
    StatementAs t (.block body) B where
  cuts := h.cuts.imp fun _ => LineEnd.boundary
  opens := h.opens
  begins := by
    rw [← List.append_nil B, (h.reads []).kind_of_block]
    cases t <;> exact ⟨by decide, by decide, by decide, rfl⟩
  reads S _ := .blockStatement (h.reads S)

/-- An expression that `isAmbiguous` is printed in parentheses, and read as a node in
parentheses. Any other is printed as it is. -/
theorem StatementAs.expr {e : Expr} {P : Tape} (h : ExprAs t e P) :
    StatementAs t (.expr e)
      (enclosedPieces (e.isAmbiguous t.surface) P ++ [.sign .semicolon]) := by
  cases hamb : e.isAmbiguous t.surface with
  | true =>
    rw [enclosedPieces, if_pos rfl]
    refine ⟨?_, Tape.opens_cons _ _ _, ?_, ?_⟩
    · rw [Statement.doc, if_pos hamb, Expr.fitted_comma]
      exact (cuts_grouping h.cuts).anywhere.append semicolon_cuts semicolon_leads
    · exact beginsStatement_of_startsExpression (k := .punct .lparen) (by cases t <;> rfl)
        (by cases t <;> decide)
    · intro S _
      have harrow : TokenKind.punct .semicolon ≠ .punct .arrow := by decide
      have hcomma : TokenKind.punct .semicolon ≠ .punct .comma := by decide
      have hopen : TokenKind.punct .lparen ≠ t.blockOpen := by cases t <;> decide
      have hvalue :=
        (h.reads_enclosed (S := .sign .semicolon :: S) harrow).assignment_of_primary rfl
      simp only [Statement.settle, hamb, if_true, List.cons_append, List.append_assoc,
        List.nil_append]
      exact .exprStatement hopen (hvalue.startsExpression rfl)
        (.expr hvalue (.sequenceEnd hcomma)) (.endSemicolon .cons)
  | false =>
    have hcomma : TokenKind.punct .semicolon ≠ .punct .comma := by decide
    have hread (S : Tape) := h.reads (.sign .semicolon :: S) rfl hcomma
    -- what is not ambiguous begins neither with a block nor with a function
    have hkind (S : Tape) := (hread S).kind_of_expr (by simpa using hamb)
    have hstarts (S : Tape) := (hread S).startsExpression rfl
    simp only [h.opens.kind_append] at hkind hstarts
    rw [enclosedPieces, if_neg (by simp)]
    refine ⟨?_, h.opens.append _, ?_, ?_⟩
    · rw [Statement.doc, if_neg (by simp [hamb]), Expr.fitted_comma]
      exact h.cuts.append semicolon_cuts semicolon_leads
    · rw [h.opens.kind_append]
      exact beginsStatement_of_startsExpression (hstarts []) (hkind []).2
    · intro S _
      simp only [Statement.settle, hamb, Bool.false_eq_true, if_false, List.append_assoc,
        List.cons_append, List.nil_append]
      refine .exprStatement ?_ ?_ (hread S) (.endSemicolon .cons) <;> rw [h.opens.kind_append]
      · exact (hkind S).1
      · exact hstarts S

/-! ## Declarations -/

/-- A declaration that is no comment is printed as some pieces, and read back by `.declaration`. -/
structure DeclarationAs (t : Dialect) (x : Declaration) (P : Tape) : Prop where
  cuts : (x.doc t.surface).Cuts t LineEnd P
  opens : P.Opens
  reads : ∀ S : Tape, (t = .brace → S.kind ≠ .keyword .elseKw) →
    Reads t .declaration (P ++ S) (x.settle t.surface) S

/-- The pieces of a word that may be left out. -/
def flagPieces (w : Keyword) (b : Bool) : Tape :=
  if b then [.word w] else []

/-- `Flag` finds a word that may be left out where `flagPieces` has written it. -/
theorem flag_flagPieces {w : Keyword} (b : Bool) {S : Tape} (hS : S.kind ≠ .keyword w) :
    Flag (.keyword w) (flagPieces w b ++ S) b S := by
  cases b with
  | true => exact .yes .cons
  | false => exact .no hS

/-- `Doc.when` is cut as `flagPieces`. -/
theorem cuts_when {w : Keyword} {s : String} (hs : s.toList = w.spelling.toList ++ [' '])
    (hw : w ∈ t.keywords) (b : Bool) :
    (Doc.when b s).Cuts t Anything (flagPieces w b) := by
  cases b with
  | true => exact cuts_wordSpace hs hw
  | false => exact Doc.cuts_empty

theorem opens_flagPieces {w : Keyword} (b : Bool) {P : Tape} (h : P.Opens) :
    Tape.Opens (flagPieces w b ++ P) := by
  cases b with
  | true => exact Tape.opens_cons _ _ _
  | false => exact h

/-- By `BeginsStatement` a statement is read where a declaration may stand. -/
theorem StatementAs.declarationAs {st : Statement} {P : Tape} (h : StatementAs t st P) :
    DeclarationAs t (.statement st) P where
  cuts := Doc.cuts_freshLine.then h.cuts
  opens := h.opens
  reads S hS := by
    have hkind := h.opens.kind_append S
    refine .statement ?_ ?_ ?_ ?_ (h.reads S hS) <;> rw [hkind]
    · exact h.begins.notExport
    · exact h.begins.notAsync
    · exact h.begins.notFunction
    · exact h.begins.notVariable

/-- A declared function is read back, with the words before it. -/
theorem DeclarationAs.function {n : String} (hn : IsName t n) {ps : List String}
    (hps : ∀ p ∈ ps, IsName t p) {body : Block} {B : Tape} (hb : BlockAs t body B)
    (exported isAsync : Bool) :
    DeclarationAs t (.function n ps body exported isAsync)
      (flagPieces .exportKw exported ++ (flagPieces .asyncKw isAsync ++
        .token t.functionWord t.surface.functionWord :: .name n :: (signaturePieces ps ++ B))) where
  cuts := by
    have hbreak : (Doc.lineFeed ++ Doc.freshLine).Cuts t Anything [] :=
      Doc.cuts_lineFeed.then Doc.cuts_freshLine
    have hexport := cuts_when (t := t) (s := "export ") (w := .exportKw) rfl
      (by cases t <;> decide) exported
    have hasync := cuts_when (t := t) (s := "async ") (w := .asyncKw) rfl
      (by cases t <;> decide) isAsync
    have hname := (((hbreak.then hexport).then hasync).then cuts_functionWord).space.then
      (cuts_name hn)
    exact ((cuts_functionEnd hname hps hb).imp fun _ => LineEnd.boundary).pieces (by simp)
  opens := opens_flagPieces _ (opens_flagPieces _ (Tape.opens_cons _ _ _))
  reads S _ := by
    have hasync (R : Tape) := flag_flagPieces (w := .asyncKw) isAsync
      (S := .token t.functionWord t.surface.functionWord :: R) (by cases t <;> nofun)
    have hexport (R : Tape) := flag_flagPieces (w := .exportKw) exported
      (S := flagPieces .asyncKw isAsync ++ .token t.functionWord t.surface.functionWord :: R)
      (by cases isAsync <;> cases t <;> nofun)
    have hsignature := reads_signature (t := t) ps (B ++ S)
    simp only [Declaration.settle, List.append_assoc, List.cons_append]
    exact .function (hexport _) (hasync _) .cons (.token _ _ _) hsignature (hb.reads S)

/-- The beginning of a declared variable: `export`, if it is there, and the `VarKeyword`. -/
theorem cuts_varHead (kw : VarKeyword) (exported : Bool) :
    (Doc.freshLine ++ Print.exportWord exported ++ kw.spelling).Cuts t Boundary
      (flagPieces .exportKw exported ++ [.word kw.word]) := by
  have hexport := cuts_when (t := t) (s := "export ") (w := .exportKw) rfl
    (by cases t <;> decide) exported
  exact (Doc.cuts_freshLine.then hexport).then (cuts_varKeyword kw)

theorem flag_varHead (kw : VarKeyword) (exported : Bool) (S : Tape) :
    Flag (.keyword .exportKw) (flagPieces .exportKw exported ++ .word kw.word :: S) exported
      (.word kw.word :: S) :=
  flag_flagPieces exported (by cases kw <;> nofun)

/-- A variable without a value is read back. -/
theorem DeclarationAs.var (kw : VarKeyword) {n : String} (hn : IsName t n) (exported : Bool) :
    DeclarationAs t (.var kw n none exported)
      (flagPieces .exportKw exported ++ [.word kw.word, .name n, .sign .semicolon]) where
  cuts := by
    rw [Declaration.doc]
    exact (((cuts_varHead kw exported).space.then (cuts_name hn)).append semicolon_cuts
      semicolon_leads).pieces (by simp)
  opens := opens_flagPieces _ (Tape.opens_cons _ _ _)
  reads S _ := by
    simp only [Declaration.settle, List.append_assoc, List.cons_append, List.nil_append]
    exact .var (flag_varHead kw exported _) .cons (varKeyword?_word kw) (.token _ _ _)
      (fun h => absurd h.1 nofun) (.endSemicolon .cons)

/-- A variable with a value is read back. -/
theorem DeclarationAs.varValue (kw : VarKeyword) {n : String} (hn : IsName t n) {v : Expr}
    {Q : Tape} (hv : AssignsAs t v Q) (exported : Bool) :
    DeclarationAs t (.var kw n (some v) exported)
      (flagPieces .exportKw exported ++
        .word kw.word :: .name n :: .token .assign "=" :: (Q ++ [.sign .semicolon])) where
  cuts := by
    have hhead := ((cuts_varHead kw exported).space.then (cuts_name hn)).append equals_cuts
      (leads_space rfl)
    rw [Declaration.doc, Expr.fitted_of_le hv.binds]
    exact ((hhead.then hv.cuts).append semicolon_cuts semicolon_leads).pieces (by simp)
  opens := opens_flagPieces _ (Tape.opens_cons _ _ _)
  reads S _ := by
    have hread := hv.reads (.sign .semicolon :: S) rfl
    simp only [Declaration.settle, List.append_assoc, List.cons_append, List.nil_append]
    exact .varValue (flag_varHead kw exported _) .cons (varKeyword?_word kw) (.token _ _ _)
      (.token _ _ _) hread (.endSemicolon .cons)

/-- Several variables in brackets are read back. They need a value and at least one name. -/
theorem DeclarationAs.vars (kw : VarKeyword) {ns : List String} (hns : ∀ n ∈ ns, IsName t n)
    (hne : ns ≠ []) {v : Expr} {Q : Tape} (hv : AssignsAs t v Q) (exported : Bool) :
    DeclarationAs t (.vars kw ns v exported)
      (flagPieces .exportKw exported ++ .word kw.word :: .sign .lbrack :: (namePieces ns ++
        .sign .rbrack :: .token .assign "=" :: (Q ++ [.sign .semicolon]))) where
  cuts := by
    -- a space, a bracket and a sign are printed as one text here, and cut one by one
    have hopen : (Doc.text " [").Cuts t Anything [.sign .lbrack] := by
      refine Doc.cuts_text (fun rest _ => ?_) (by simp) (by decide)
      show cut t (' ' :: (Punct.lbrack.spelling.toList ++ rest)) = _
      rw [cut_space, cut_sign rfl]
    have hclose : (Doc.text "] = ").Cuts t Anything [.sign .rbrack, .token .assign "="] := by
      refine Doc.cuts_text (fun rest _ => ?_) (by simp) (by decide)
      show cut t (Punct.rbrack.spelling.toList ++ ' ' :: '=' :: ' ' :: rest) = _
      rw [cut_sign rfl, cut_space, cut_equals, Cut.prepend_prepend]
      rfl
    have hlead : (Doc.text "] = ").Leads Anything Boundary :=
      Doc.leads_boundary rfl (by decide) (by decide)
    have hhead := ((cuts_varHead kw exported).append hopen (leads_space rfl)).then (cuts_names hns)
    rw [Declaration.doc, Expr.fitted_of_le hv.binds]
    exact (((hhead.append hclose hlead).then hv.cuts).append semicolon_cuts
      semicolon_leads).pieces (by simp [namePieces])
  opens := opens_flagPieces _ (Tape.opens_cons _ _ _)
  reads S _ := by
    have hread := hv.reads (.sign .semicolon :: S) rfl
    have hnames (R : Tape) : Reads t .names (namePieces ns ++ .sign .rbrack :: R) ns _ :=
      reads_names ns nofun nofun
    simp only [Declaration.settle, List.append_assoc, List.cons_append, List.nil_append]
    exact .vars (flag_varHead kw exported _) .cons (varKeyword?_word kw) .cons (hnames _) hne .cons
      (.token _ _ _) hread (.endSemicolon .cons)

/-! ## Comments between declarations -/

/-- A comment is cut as itself where a `LineEnd` follows, which a line comment needs. -/
theorem cuts_comment {c : Comment} (h : c.Genuine t) :
    (Doc.text c.text).Cuts t LineEnd [.comment c] := by
  rintro _ _ _ rest _ rfl hrest htrails
  have hidle := htrails ⟨[], c, [], rfl, by simp [Tape.Idle]⟩
  exact Cut.fares_of_eq ⟨rfl, fun hdivide => absurd hdivide h.ne_divide⟩
    (cut_comment_of_barred h (hrest h.ne_nil) (barred_of_not_idle hidle))

theorem leads_comments (cs : List Comment) : (Print.comments cs).Leads LineEnd LineEnd := by
  cases cs with
  | nil => exact Doc.leads_empty
  | cons c cs => exact Doc.leads_of_startsLine rfl

/-- `Print.comments` sets each comment on a line of its own. -/
theorem cuts_comments {cs : List Comment} (h : ∀ c ∈ cs, c.Genuine t) :
    (Print.comments cs).Cuts t LineEnd (cs.map .comment) := by
  induction cs with
  | nil => exact Doc.cuts_empty
  | cons c cs ih =>
    rw [List.forall_mem_cons] at h
    exact (Doc.cuts_freshLine.then (cuts_comment h.1)).append (ih h.2) (leads_comments cs)

/-- `Comment.declare` before whatever comes next: the comments are cut first. -/
theorem cuts_declare {cs : List Comment} (hcs : ∀ c ∈ cs, c.Genuine t) {xs : Block} {P : Tape}
    (h : (Declaration.docs t.surface xs).Cuts t LineEnd P) :
    (Declaration.docs t.surface (Comment.declare cs ++ xs)).Cuts t LineEnd
      (cs.map .comment ++ P) := by
  cases cs with
  | nil => exact h
  | cons c cs => exact (cuts_comments hcs).append h (Declaration.leads_docs _ _)

theorem settles_declare (s : Surface) (cs : List Comment) (xs : Block) :
    Declaration.settles s (Comment.declare cs ++ xs)
      = Comment.declare cs ++ Declaration.settles s xs := by
  cases cs <;> rfl

/-- Comments at the end of a block, none included. -/
theorem DeclarationsAs.end {cs : List Comment} (hcs : ∀ c ∈ cs, c.Genuine t) :
    DeclarationsAs t (Comment.declare cs) (cs.map .comment) where
  cuts := by
    have hcuts : (Declaration.docs t.surface (Comment.declare cs ++ [])).Cuts t LineEnd _ :=
      cuts_declare hcs Doc.cuts_empty
    rwa [List.append_nil, List.append_nil] at hcuts
  reads S hS hwaiting _ := by
    have hend := Reads.declarationsEnd (d := t) (S := cs.map .comment ++ S)
      (by rwa [Tape.kind_map_comment])
    have hsettle := settles_declare t.surface cs []
    rw [Tape.waiting_map_comment, hwaiting, List.append_nil, Tape.flush_map_comment,
      Tape.flush_of_waiting hwaiting] at hend
    rw [List.append_nil] at hsettle
    rw [hsettle]
    exact (List.append_nil (Comment.declare cs)).symm ▸ hend

/-- A declaration begins with a token that `startsDeclaration`. -/
theorem Reads.startsDeclaration {S S' : Tape} {x : Declaration}
    (h : Reads t .declaration S x S') : Diglot.startsDeclaration t S.kind = true := by
  -- a word that may be left out begins a declaration, and so does what follows where it is left
  -- out
  have hflag {w : Keyword} {b : Bool} {S S₁ : Tape} (hflag : Flag (.keyword w) S b S₁)
      (hw : Diglot.startsDeclaration t (.keyword w) = true)
      (hS₁ : Diglot.startsDeclaration t S₁.kind = true) :
      Diglot.startsDeclaration t S.kind = true := by
    cases hflag with
    | yes h => rwa [h.kind_eq]
    | no _ => exact hS₁
  have hvar {k : TokenKind} {kw : VarKeyword} (hk : varKeyword? k = some kw) :
      Diglot.startsDeclaration t k = true := by
    simp [Diglot.startsDeclaration, hk]
  cases h with
  | function he ha h _ _ _ =>
    refine hflag he (by cases t <;> rfl) (hflag ha (by cases t <;> rfl) ?_)
    rw [h.kind_eq]
    cases t <;> rfl
  | var he h hk _ _ _ | varValue he h hk _ _ _ _ | vars he h hk _ _ _ _ _ _ _ =>
    refine hflag he (by cases t <;> rfl) ?_
    rw [h.kind_eq]
    exact hvar hk
  | statement _ _ _ _ hs =>
    cases hs with
    | ifStatement h _ | braceWhile _ h _ _ _ _ | blockWhile _ h _ _ | braceFor _ h _ _ _ _
    | blockFor _ h _ _ | throw h _ _ | retNone h _ _ | retSome h _ _ _ =>
      rw [h.kind_eq]
      cases t <;> rfl
    | blockStatement h =>
      rw [h.kind_of_block]
      cases t <;> rfl
    | exprStatement _ hk _ _ => simp [Diglot.startsDeclaration, hk]

/-- Declarations do not begin with a word that begins none, unless it comes after them. -/
theorem Reads.kind_of_declarations {S S' : Tape} {xs : Block} (h : Reads t .declarations S xs S')
    {k : TokenKind} (hk : Diglot.startsDeclaration t k = false) (hS' : S'.kind ≠ k) :
    S.kind ≠ k := by
  cases h with
  | declarationsEnd _ => rwa [Tape.kind_flush] at hS'
  | declarationsMore hx _ =>
    rw [← S.kind_flush]
    rintro rfl
    exact absurd hx.startsDeclaration (Bool.eq_false_iff.1 hk)

/-- One more declaration before others, with the comments that wait before it. -/
theorem DeclarationsAs.more {cs : List Comment} (hcs : ∀ c ∈ cs, c.Genuine t) {x : Declaration}
    {P : Tape} (hx : DeclarationAs t x P) {xs : Block} {Q : Tape} (hxs : DeclarationsAs t xs Q) :
    DeclarationsAs t (Comment.declare cs ++ x :: xs) (cs.map .comment ++ (P ++ Q)) where
  cuts := by
    refine cuts_declare hcs ?_
    rw [Declaration.docs]
    exact hx.cuts.append hxs.cuts (Declaration.leads_docs _ _)
  reads S hS hwaiting helse := by
    have hrest := hxs.reads S hS hwaiting helse
    have hfirst := hx.reads (Q ++ S) fun ht =>
      hrest.kind_of_declarations (by cases t <;> rfl) (helse ht)
    have hopens : Tape.Opens (P ++ (Q ++ S)) := hx.opens.append _
    rw [settles_declare, Declaration.settles, List.append_assoc, List.append_assoc]
    rw [← hopens.flush, ← Tape.flush_map_comment cs] at hfirst
    have hmore := Reads.declarationsMore hfirst hrest
    rwa [Tape.waiting_map_comment, hopens.waiting, List.append_nil] at hmore

end Diglot

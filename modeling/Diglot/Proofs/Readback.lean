import Diglot.Proofs.Binding
import Diglot.Proofs.Parsed
import Diglot.Proofs.Printed
import Diglot.Proofs.Settled

/-!
# Reading printed pieces

What it means that the printed form of an expression is read back, and how the readings of parts
make up those of lists, parameters and brackets. On a printed tape the token that is asked for is
always the first piece, since comments are printed only where declarations begin.

- `Node.Legible`: what a node has to be like for its text in a dialect to be read back.
- `TokenKind.prolongs`: the tokens that an expression would go on with.
- `Expr.Written`: an expression is printed as some pieces.
- `AssignsAs`, `ExprAs`, `EntersAs`: these pieces are read back as an operand of a comma, as an
  expression, as an object entry.
- `reads_elements`, `reads_entries`, `reads_names`: lists of them.
-/

namespace Diglot

open Rules Lexeme

/-! ## Legible nodes -/

/-- The spellings of a node are `Genuine`. -/
def Node.Spelled (t : Dialect) : Node → Prop
  | .expr (.literal value) => Genuine t value.text value.kind
  | .expr (.binary op _ right) => op = .dot → ∃ name, right = .symbol name ∧ IsWord name
  | .entry (.shorthand key) | .entry (.pair key _) => key.Genuine t
  | .declaration (.comments cs) => ∀ c ∈ cs, c.Genuine t
  | _ => True

/-- A node whose text in a dialect is read back: its names are `IsName` there and it is
`Node.Spelled`. -/
structure Node.Legible (t : Dialect) (n : Node) : Prop where
  names : ∀ name ∈ n.names, IsName t name
  spelled : n.Spelled t

/-! ## Pieces in front -/

theorem Passes.cons {k : TokenKind} {text : String} {S : Tape} : Passes (.token k text :: S) k S :=
  ⟨text, .token k text S⟩

/-- A tape that begins with a token, and not with a comment. -/
def Tape.Opens (P : Tape) : Prop :=
  ∃ k text P', P = .token k text :: P'

theorem Tape.opens_cons (k : TokenKind) (text : String) (P : Tape) :
    Tape.Opens (.token k text :: P) :=
  ⟨k, text, P, rfl⟩

theorem Tape.Opens.append {P : Tape} (h : P.Opens) (Q : Tape) : (P ++ Q).Opens := by
  obtain ⟨k, text, P', rfl⟩ := h
  exact ⟨k, text, P' ++ Q, rfl⟩

/-- Where a tape `Opens`, no comment waits. -/
theorem Tape.Opens.waiting {P : Tape} (h : P.Opens) : P.waiting = [] := by
  obtain ⟨k, text, P', rfl⟩ := h
  rfl

theorem Tape.Opens.flush {P : Tape} (h : P.Opens) : P.flush = P := by
  obtain ⟨k, text, P', rfl⟩ := h
  rfl

/-! ## What may follow -/

/-- The tokens that go on a value, before any operator between operands: those that
`extendsValue`, a `stepOp?` or an arrow. -/
def TokenKind.prolongsValue (k : TokenKind) : Bool :=
  k.extendsValue || (stepOp? k).isSome || k == .punct .arrow

/-- The tokens that go on an operand of a comma: those that `prolongsValue`, an `infixOp?`, an
assignment or a question mark. -/
def TokenKind.prolongs (k : TokenKind) : Bool :=
  k.prolongsValue || (infixOp? k).isSome || k == .assign || k == .punct .question

section Follow

variable {k : TokenKind}

theorem TokenKind.prolongsValue_eq_false (h : k.prolongsValue = false) :
    k.extendsValue = false ∧ stepOp? k = none ∧ k ≠ .punct .arrow := by
  simpa [TokenKind.prolongsValue, and_assoc] using h

theorem TokenKind.prolongs_eq_false (h : k.prolongs = false) :
    k.prolongsValue = false ∧ infixOp? k = none ∧ k ≠ .assign ∧ k ≠ .punct .question := by
  simpa [TokenKind.prolongs, and_assoc] using h

/-- An operator between operands does not go on a value. -/
theorem prolongsValue_of_infixOp? {op : BinaryOp} (h : infixOp? k = some op) :
    k.prolongsValue = false := by
  unfold infixOp? at h
  split at h <;> first | rfl | cases h

end Follow

/-! ## Expressions read back -/

/-- An expression is printed as some pieces, of which the first is a token. -/
structure Expr.Written (t : Dialect) (e : Expr) (P : Tape) : Prop where
  cuts : (e.doc t.surface).Cuts t Boundary P
  opens : P.Opens

/-- An expression is printed as some pieces, which are read back by `.assignment`, where an
operand of a comma may stand. -/
structure AssignsAs (t : Dialect) (e : Expr) (P : Tape) : Prop extends e.Written t P where
  binds : .assignment ≤ e.precedence
  reads : ∀ S : Tape, S.kind.prolongs = false → Reads t .assignment (P ++ S) (e.settle t.surface) S

/-- An expression is printed as some pieces, which are read back by `.expr`, where operands may
be joined by commas. -/
structure ExprAs (t : Dialect) (e : Expr) (P : Tape) : Prop extends e.Written t P where
  reads : ∀ S : Tape, S.kind.prolongs = false → S.kind ≠ .punct .comma →
    Reads t .expr (P ++ S) (e.settle t.surface) S

/-- An object entry is printed as some pieces, which are read back by `.entry`. -/
structure EntersAs (t : Dialect) (e : Entry) (P : Tape) : Prop where
  cuts : (e.doc t.surface).Cuts t Boundary P
  reads : ∀ S : Tape, S.kind = .punct .comma ∨ S.kind = .punct .rbrace →
    Reads t .entry (P ++ S) (e.settle t.surface) S

section Lists

variable {t : Dialect} {Ps : List Tape}

/-- Elements are cut into their pieces one by one, none of them in parentheses. -/
theorem AssignsAs.cutAll {es : List Expr} (h : List.Forall₂ (AssignsAs t) es Ps) :
    CutAll t (Expr.docs t.surface es) Ps := by
  induction h with
  | nil => exact .nil
  | cons h _ ih =>
    refine .cons ?_ ih
    rw [Expr.fitted_of_le h.binds]
    exact h.cuts

theorem EntersAs.cutAll {es : List Entry} (h : List.Forall₂ (EntersAs t) es Ps) :
    CutAll t (Entry.docs t.surface es) Ps := by
  induction h with
  | nil => exact .nil
  | cons h _ ih => exact .cons h.cuts ih

/-- The tokens that close a list of elements. -/
def TokenKind.closesList (k : TokenKind) : Prop :=
  k = .punct .rparen ∨ k = .punct .rbrack

/-- An expression does not begin with a token that `closesList`. -/
theorem Reads.not_closed {S S' : Tape} {e : Expr} {close : TokenKind}
    (h : Reads t .assignment S e S') (hclose : close.closesList) :
    ¬(S.kind = close ∨ S.kind = .eof) := by
  have hstarts := h.startsExpression rfl
  rintro (hk | hk) <;> rw [hk] at hstarts
  · rcases hclose with rfl | rfl <;> cases t <;> exact absurd hstarts (by decide)
  · cases t <;> exact absurd hstarts (by decide)

/-- Elements with commas between them, and perhaps one after the last, are read back by
`.elements`. -/
theorem reads_elements {es : List Expr} (h : List.Forall₂ (AssignsAs t) es Ps) (hne : es ≠ [])
    (comma : Bool) (b : Bool) {close : TokenKind} (hclose : close.closesList) {S : Tape}
    (hS : S.kind = close) :
    Reads t (.elements close b)
      (Tape.commas Ps ++ ((if comma then [.sign .comma] else []) ++ S))
      (Expr.settles t.surface es, comma) S := by
  have hend : S.kind.prolongs = false ∧ S.kind ≠ .punct .comma := by
    rw [hS]
    rcases hclose with rfl | rfl <;> decide
  -- an element is never the closing sign, so each round reads one and then looks for a comma
  induction h generalizing b with
  | nil => exact absurd rfl hne
  | @cons e P es Ps he hes ih =>
    cases hes with
    | nil =>
      cases comma with
      | false =>
        have hread := he.reads S hend.1
        simpa [Tape.commas, Expr.settles] using
          Reads.elementsLast (hread.not_closed hclose) hread hend.2
      | true =>
        have hread := he.reads (.sign .comma :: S) rfl
        have hnone : Reads t (.elements close true) S ([], true) S := .elementsNone (.inl hS)
        simpa [Tape.commas, Expr.settles] using
          Reads.elementsMore (hread.not_closed hclose) hread .cons hnone
    | cons he' hes' =>
      have hrest := ih (by simp) true
      have hread (S : Tape) := he.reads (.sign .comma :: S) rfl
      rw [Tape.commas_cons_cons, List.append_assoc]
      exact .elementsMore ((hread _).not_closed hclose) (hread _) .cons hrest

/-- The pieces of elements between parentheses, perhaps with a comma after the last. -/
def argumentPieces (Ps : List Tape) (comma : Bool) : Tape :=
  .sign .lparen :: (Tape.commas Ps ++ ((if comma then [.sign .comma] else []) ++ [.sign .rparen]))

/-- `argumentPieces` are read back as a list. -/
theorem reads_arguments {es : List Expr} (h : List.Forall₂ (AssignsAs t) es Ps) (comma : Bool)
    (hcomma : es = [] → comma = false) (S : Tape) :
    Reads t .arguments (argumentPieces Ps comma ++ S) (.list (Expr.settles t.surface es) comma)
      S := by
  simp only [argumentPieces, List.cons_append, List.append_assoc, List.nil_append]
  cases es with
  | nil =>
    cases h
    rw [hcomma rfl]
    exact .arguments .cons (.elementsNone (.inl rfl)) .cons
  | cons e es =>
    exact .arguments .cons (reads_elements h (by simp) comma false (.inl rfl) rfl) .cons

/-- An object entry does not begin with what ends the object. -/
theorem Reads.kind_of_entry {S S' : Tape} {e : Entry} (h : Reads t .entry S e S') :
    ¬(S.kind = .punct .rbrace ∨ S.kind = .eof) := by
  have hkey {k : TokenKind} {text : String} {key : Key} (hk : Key.ofToken? text k = some key) :
      ¬(k = .punct .rbrace ∨ k = .eof) := by
    rintro (rfl | rfl) <;> cases hk
  cases h with
  | entryShort h hk _ => rw [h.kind_eq]; exact hkey hk
  | entryPair h hk _ _ => rw [h.kind_eq]; exact hkey hk

/-- Object entries with commas between them are read back by `.entries`. -/
theorem reads_entries {es : List Entry} (h : List.Forall₂ (EntersAs t) es Ps) {S : Tape}
    (hS : S.kind = .punct .rbrace) :
    Reads t .entries (Tape.commas Ps ++ S) (Entry.settles t.surface es) S := by
  induction h with
  | nil => exact .entriesNone (.inl hS)
  | @cons e P es Ps he hes ih =>
    cases hes with
    | nil =>
      have hread := he.reads S (.inr hS)
      simpa [Tape.commas, Entry.settles] using
        Reads.entriesLast hread.kind_of_entry hread (by rw [hS]; decide)
    | cons he' hes' =>
      have hread (S : Tape) := he.reads (.sign .comma :: S) (.inl rfl)
      rw [Tape.commas_cons_cons, List.append_assoc]
      exact .entriesMore (hread _).kind_of_entry (hread _) .cons ih

/-- Names with commas between them are read back by `.names`. -/
theorem reads_names (ns : List String) {S : Tape} (hs : S.kind ≠ .symbol)
    (hc : S.kind ≠ .punct .comma) :
    Reads t .names (Tape.commas (ns.map fun n => [.name n]) ++ S) ns S := by
  induction ns with
  | nil => exact .namesNone hs
  | cons n ns ih =>
    cases ns with
    | nil => exact .namesLast (.token _ _ _) hc
    | cons m ns =>
      rw [List.map_cons, List.map_cons, Tape.commas_cons_cons]
      exact .namesMore (.token _ _ _) .cons ih

end Lists

/-! ## Names, literals and words -/

/-- Text that no sign before it runs into. -/
def Plain (rest : List Char) : Prop :=
  ∃ c cs, rest = c :: cs ∧ c ≠ '=' ∧ c ≠ '-' ∧ c ≠ '+'

theorem Plain.append {cs : List Char} (h : Plain cs) (rest : List Char) : Plain (cs ++ rest) := by
  obtain ⟨c, cs, rfl, hc⟩ := h
  exact ⟨c, cs ++ rest, rfl, hc⟩

theorem plain_cons {p : Char → Bool} {c : Char} (hc : p c = true) (cs : List Char)
    (heq : p '=' = false) (hminus : p '-' = false) (hplus : p '+' = false) : Plain (c :: cs) := by
  refine ⟨c, cs, rfl, ?_, ?_, ?_⟩ <;> rintro rfl <;> simp_all

/-- A word begins with no sign. -/
theorem IsWord.plain {text : String} (h : IsWord text) : Plain text.toList := by
  obtain ⟨⟨c, cs, hcs, hc⟩, -⟩ := h
  rw [hcs]
  exact plain_cons hc cs (by decide) (by decide) (by decide)

section Tokens

variable {t : Dialect}

/-- A literal begins with a letter, a digit, a quote or a slash, so it is `Plain`. -/
theorem plain_literal {v : Literal} (h : Genuine t v.text v.kind) : Plain v.text.toList := by
  cases v with
  | boolean value text => exact (isWord_boolean h).plain
  | fixnum value text =>
    obtain ⟨hne, hdigits⟩ := h
    obtain ⟨c, cs, hcs⟩ := List.exists_cons_of_ne_nil (l := text.toList)
      fun hnil => hne (by rwa [← String.toList_inj])
    simp only [Literal.text, hcs] at hdigits ⊢
    exact plain_cons (hdigits c (by simp)) cs (by decide) (by decide) (by decide)
  | flonum value text =>
    obtain ⟨hne, hscan⟩ := h
    have hpos := length_pos_of_ne_empty hne
    obtain ⟨whole, fraction, tail, htext, hwhole, -, hdigits, -⟩ :=
      exists_of_flonum (Nat.lt_of_lt_of_eq hpos hscan.symm)
    obtain ⟨c, cs, rfl⟩ := List.exists_cons_of_ne_nil hwhole
    rw [htext]
    exact plain_cons (hdigits c (by simp)) _ (by decide) (by decide) (by decide)
  | string value text =>
    obtain ⟨hne, hscan⟩ := h
    have hpos : 0 < string text.toList := Nat.lt_of_lt_of_eq (length_pos_of_ne_empty hne) hscan.symm
    cases hcs : text.toList with
    | nil => simp [hcs, string] at hpos
    | cons q cs =>
      have hq : isQuote q = true := by
        cases hq : isQuote q with
        | true => rfl
        | false => simp [hcs, string, hq] at hpos
      rw [Literal.text, hcs]
      exact plain_cons hq cs (by decide) (by decide) (by decide)
  | regexp value text =>
    obtain ⟨hne, hscan, -⟩ := h
    have hpos := length_pos_of_ne_empty hne
    obtain ⟨c, tail, -, htext, -⟩ := exists_of_regexp (Nat.lt_of_lt_of_eq hpos hscan.symm)
    rw [htext]
    exact ⟨'/', c :: tail, rfl, by decide⟩

theorem ne_divide_of_string {text : String} (h : Genuine t text .string) : text ≠ "/=" := by
  rintro rfl
  exact absurd h.2 (by decide)

/-- No literal is spelled as the sign for dividing and assigning. -/
theorem ne_divide_of_literal {v : Literal} (h : Genuine t v.text v.kind) : v.text ≠ "/=" := by
  intro htext
  rw [htext] at h
  cases v with
  | boolean _ _ => exact (isWord_boolean h).ne_divide rfl
  | fixnum _ _ => exact absurd (h.2 '/' (by simp)) (by decide)
  | flonum _ _ => exact absurd h.2 (by decide)
  | string _ _ => exact ne_divide_of_string h rfl
  | regexp _ _ => exact absurd h.2.1 (by decide)

/-- What `classify` finds where a literal is written before what prolongs no word. -/
theorem Literal.classify_append {v : Literal} (h : Genuine t v.text v.kind) {rest : List Char}
    (hrest : Boundary rest) : classify t (v.text.toList ++ rest) = (v.kind, v.text.length) := by
  cases v with
  | boolean value text => exact classify_boolean t h hrest
  | fixnum value text => exact classify_fixnum t h hrest
  | flonum value text => exact classify_flonum t h hrest
  | string value text => exact classify_string_append t h
  | regexp value text => exact classify_regexp_append t h hrest

/-- So a literal is cut as one token. -/
theorem cuts_literal {v : Literal} (h : Genuine t v.text v.kind) :
    (Doc.text v.text).Cuts t Boundary [.token v.kind v.text] := by
  have hne : v.text ≠ "" := by
    cases v with
    | boolean value text => exact (isWord_boolean h).ne_empty
    | _ => exact h.1
  exact cuts_token hne (by cases v <;> rfl) (ne_divide_of_literal h)
    fun _ hrest => Literal.classify_append h hrest

theorem cuts_functionWord :
    (Doc.text t.surface.functionWord).Cuts t Boundary
      [.token t.functionWord t.surface.functionWord] := by
  cases t with
  | brace => exact cuts_word (w := .functionKw) (by decide)
  | block => exact cuts_word (w := .fnKw) (by decide)

theorem cuts_blockOpen :
    (Doc.text t.surface.blockOpen).Cuts t Boundary [.token t.blockOpen t.surface.blockOpen] := by
  cases t with
  | brace => exact (cuts_sign .lbrace rfl).anywhere
  | block => exact cuts_word (w := .doKw) (by decide)

theorem cuts_blockClose :
    (Doc.text t.surface.blockClose).Cuts t Boundary [.token t.blockClose t.surface.blockClose] := by
  cases t with
  | brace => exact (cuts_sign .rbrace rfl).anywhere
  | block => exact cuts_word (w := .endKw) (by decide)

/-- Every word can name a member: `Dialect.wordKind` gives a kind that `namesMember`. -/
theorem namesMember_wordKind (t : Dialect) (n : String) : (t.wordKind n).namesMember = true := by
  unfold Dialect.wordKind
  split
  · rfl
  · cases t.keyword? n <;> rfl

/-- The name of a member is cut as a word of its kind. -/
theorem cuts_memberName {n : String} (h : IsWord n) :
    (Doc.text n).Cuts t Boundary [.token (t.wordKind n) n] := by
  refine cuts_token h.ne_empty ?_ h.ne_divide fun _ hrest => classify_word_append t h hrest
  have hmember := namesMember_wordKind t n
  generalize t.wordKind n = k at hmember
  cases k <;> first | rfl | exact absurd hmember (by decide)

end Tokens

/-! ## From one level of operators to the next -/

section Levels

variable {t : Dialect} {S S' : Tape} {e : Expr}

theorem Reads.kind_of_arguments (h : Reads t .arguments S e S') : S.kind = .punct .lparen := by
  cases h with
  | arguments h _ _ => exact h.kind_eq

/-- A `.primary` begins neither with `new` nor with an operator. -/
theorem Reads.kind_of_primary (h : Reads t .primary S e S') :
    S.kind ≠ .keyword .newKw ∧ unaryOp? S.kind = none := by
  cases h with
  | symbol h | boolean h | fixnum h _ | flonum h | string h | regexp h | object h _ _
  | array h _ _ =>
    rw [h.kind_eq]
    exact ⟨by decide, rfl⟩
  | functionNamed h _ _ _ | functionBare h _ _ _ =>
    rw [h.kind_eq]
    cases t <;> exact ⟨by decide, rfl⟩
  | grouping h _ | list h _ _ _ | arrow h _ _ _ | arrowBlock h _ _ =>
    rw [h.kind_of_arguments]
    exact ⟨by decide, rfl⟩

/-- A `.member` begins with no operator. -/
theorem Reads.kind_of_member (h : Reads t .member S e S') : unaryOp? S.kind = none := by
  cases h with
  | newBare h _ _ _ | newCall h _ _ _ _ =>
    rw [h.kind_eq]
    rfl
  | member _ h _ => exact h.kind_of_primary.2

theorem Reads.kind_of_step (h : Reads t .step S e S') : unaryOp? S.kind = none := by
  cases h with
  | stepNone h _ => exact h.kind_of_member
  | stepSome h _ _ _ => exact h.kind_of_member

/-- A value after which nothing `prolongs` is an operand of a comma. -/
theorem Reads.assignment_of_primary (h : Reads t .primary S e S') (hS' : S'.kind.prolongs = false) :
    Reads t .assignment S e S' := by
  obtain ⟨hvalue, hjoins, hassign, hquestion⟩ := TokenKind.prolongs_eq_false hS'
  obtain ⟨hextends, hstep, -⟩ := TokenKind.prolongsValue_eq_false hvalue
  have hmember : Reads t .member S e S' := .member h.kind_of_primary.1 h (.memberEnd hextends)
  have hunary : Reads t .unary S e S' := .unaryNone h.kind_of_primary.2 (.stepNone hmember hstep)
  exact .assignmentNone (.climb hunary (.climbEnd (by simp [hjoins]))) hassign hquestion

end Levels

/-! ## Brackets and parameters -/

section Brackets

variable {t : Dialect}

theorem lparen_cuts : (Doc.text "(").Cuts t Anything [.sign .lparen] :=
  cuts_sign .lparen rfl

theorem rparen_cuts : (Doc.text ")").Cuts t Anything [.sign .rparen] :=
  cuts_sign .rparen rfl

theorem rparen_leads {ok : List Char → Prop} : (Doc.text ")").Leads ok Boundary :=
  Doc.leads_boundary rfl (by decide) (by decide)

/-- Pieces in parentheses, if they have to be. -/
def enclosedPieces (enclose : Bool) (P : Tape) : Tape :=
  if enclose then .sign .lparen :: (P ++ [.sign .rparen]) else P

/-- An operand of a comma between parentheses is read as an `Expr.grouping`. -/
theorem AssignsAs.reads_grouping {e : Expr} {P : Tape} (h : AssignsAs t e P) {S : Tape}
    (hS : S.kind ≠ .punct .arrow) :
    Reads t .primary (.sign .lparen :: (P ++ .sign .rparen :: S))
      (.grouping (e.settle t.surface)) S := by
  have hread := reads_arguments (.cons h .nil) false nofun S
  simp only [argumentPieces, Tape.commas, List.flatMap_nil, List.append_nil, Bool.false_eq_true,
    if_false, List.nil_append, List.cons_append, List.append_assoc, Expr.settles] at hread
  exact .grouping hread hS

/-- Parentheses are cut as such, whatever follows them. -/
theorem cuts_grouping {doc : Doc} {P : Tape} (h : doc.Cuts t Boundary P) :
    ("(" ++ doc ++ ")").Cuts t Anything (.sign .lparen :: (P ++ [.sign .rparen])) :=
  (lparen_cuts.then h).append rparen_cuts rparen_leads

theorem AssignsAs.symbol {n : String} (h : IsName t n) : AssignsAs t (.symbol n) [.name n] where
  cuts := cuts_name h
  opens := Tape.opens_cons _ _ _
  binds := Nat.le_of_ble_eq_true rfl
  reads _ hS := (Reads.symbol (.token _ _ _)).assignment_of_primary hS

theorem AssignsAs.symbols {ns : List String} (h : ∀ n ∈ ns, IsName t n) :
    List.Forall₂ (AssignsAs t) (ns.map .symbol) (ns.map fun n => [.name n]) := by
  induction ns with
  | nil => exact .nil
  | cons n ns ih => exact .cons (.symbol (h n (by simp))) (ih fun n hn => h n (by simp [hn]))

/-- Names are settled. -/
theorem Expr.settles_symbols (s : Surface) (ns : List String) :
    Expr.settles s (ns.map .symbol) = ns.map .symbol := by
  induction ns with
  | nil => rfl
  | cons n ns ih => simp [Expr.settles, Expr.settle, ih]

/-- The pieces of names between parentheses, without a comma after the last. -/
def signaturePieces (ns : List String) : Tape :=
  argumentPieces (ns.map fun n => [.name n]) false

theorem cuts_signature {ps : List String} (h : ∀ p ∈ ps, IsName t p) :
    (Print.signature ps).Cuts t Anything (signaturePieces ps) :=
  cuts_grouping (cuts_names h)

/-- `signaturePieces` are read back as parameters. -/
theorem reads_signature (ps : List String) (S : Tape) :
    Reads t .signature (signaturePieces ps ++ S) ps S := by
  have hnames := reads_names (t := t) ps (S := .sign .rparen :: S) nofun nofun
  simp only [signaturePieces, argumentPieces, List.cons_append, List.append_assoc, List.nil_append,
    Bool.false_eq_true, if_false]
  exact .signature .cons hnames .cons

/-- They are read as arguments, too, before an arrow function is known to be one. -/
theorem reads_params {ps : List String} (h : ∀ p ∈ ps, IsName t p) (S : Tape) :
    Reads t .arguments (signaturePieces ps ++ S) (.list (ps.map .symbol) false) S := by
  have hread := reads_arguments (AssignsAs.symbols h) false (fun _ => rfl) S
  rwa [Expr.settles_symbols] at hread

/-- `Print.arrowHead` is cut into `signaturePieces` and the arrow. -/
theorem cuts_arrowHead {ps : List String} (h : ∀ p ∈ ps, IsName t p) :
    (Print.arrowHead ps).Cuts t Anything (signaturePieces ps ++ [.sign .arrow]) := by
  have harrow : (Doc.text ") => ").Cuts t Anything [.sign .rparen, .sign .arrow] := by
    refine Doc.cuts_text (fun rest _ => ?_) (by simp) (by decide)
    show cut t (Punct.rparen.spelling.toList ++
      ' ' :: (Punct.arrow.spelling.toList ++ ' ' :: rest)) = _
    rw [cut_sign rfl, cut_space,
      cut_token (by decide) rfl (k := .punct .arrow) (by cases t <;> rfl), cut_space,
      Cut.prepend_prepend]
    rfl
  have hlead : (Doc.text ") => ").Leads Anything Boundary :=
    Doc.leads_boundary rfl (by decide) (by decide)
  exact ((lparen_cuts.then (cuts_names h)).append harrow hlead).pieces
    (by simp [signaturePieces, argumentPieces])

/-- The document of an `Expr.list` is cut into `argumentPieces`. -/
theorem cuts_list {es : List Expr} {Ps : List Tape} (h : List.Forall₂ (AssignsAs t) es Ps)
    (comma : Bool) :
    ((Expr.list es comma).doc t.surface).Cuts t Anything (argumentPieces Ps comma) := by
  have hitems : (Doc.text "(" ++ Doc.join ", " (Expr.docs t.surface es)).Cuts t Boundary _ :=
    lparen_cuts.then (AssignsAs.cutAll h).join
  rw [Expr.doc]
  cases comma with
  | false =>
    exact ((hitems.append (Q := []) Doc.cuts_empty Doc.leads_empty).append rparen_cuts
      rparen_leads).pieces (by simp [argumentPieces])
  | true =>
    have hcomma : (Doc.text ",").Cuts t Anything [.sign .comma] := cuts_sign .comma rfl
    have hlead : (Doc.text ",").Leads Anything Boundary :=
      Doc.leads_boundary rfl (by decide) (by decide)
    exact ((hitems.append hcomma hlead).then rparen_cuts).pieces (by simp [argumentPieces])

end Brackets

/-! ## Where a block may begin -/

section Places

variable {t : Dialect} {φ : Phrase} {S S' : Tape} {e : Expr}

/-- An expression that does not `readsAsBlock` does not begin like one. -/
theorem Reads.kind_ne_blockOpen (h : Reads t .assignment S e S')
    (he : e.readsAsBlock t.surface = false) : S.kind ≠ t.blockOpen := by
  have hbegins : e.BeginsWith t S.kind := h.begins
  have hstarts := h.startsExpression rfl
  rw [Expr.readsAsBlock_eq, hbegins.object] at he
  intro hk
  rw [hk] at he hstarts
  cases t with
  | brace => exact absurd he (by decide)
  | block => exact absurd hstarts (by decide)

/-- An expression that is not one that `isAmbiguous` begins neither like a block nor like a
function. -/
theorem Reads.kind_of_expr (h : Reads t .expr S e S') (he : e.isAmbiguous t.surface = false) :
    S.kind ≠ t.blockOpen ∧ S.kind ≠ t.functionWord := by
  have hbegins : e.BeginsWith t S.kind := h.begins
  have hstarts := h.startsExpression rfl
  rw [Expr.isAmbiguous_eq, hbegins.object, hbegins.function] at he
  constructor <;> intro hk <;> rw [hk] at he hstarts
  · cases t with
    | brace => exact absurd he (by decide)
    | block => exact absurd hstarts (by decide)
  · cases t <;> exact absurd he (by decide)

end Places

/-! ## Commas between parentheses -/

/-- Further operands of commas, up to a closing parenthesis, are `.elements` of a list as well. -/
def Phrase.Lists (t : Dialect) : (φ : Phrase) → Tape → φ.Out → Tape → Prop
  | .sequenceFrom l, S, e, S' => S'.kind = .punct .rparen →
    ∃ rs, e.commaParts = l.commaParts ++ rs ∧
      (rs = [] ∧ S = S' ∨ ∃ S₁, Passes S (.punct .comma) S₁ ∧
        Reads t (.elements (.punct .rparen) true) S₁ (rs, false) S')
  | _, _, _, _ => True

/-- What `.sequenceFrom` reads before a closing parenthesis, `.elements` would read too. -/
theorem Reads.lists {t : Dialect} {φ : Phrase} {S S' : Tape} {a : φ.Out} (h : Reads t φ S a S') :
    φ.Lists t S a S' := by
  induction h with
  | sequenceEnd _ => exact fun _ => ⟨[], by simp, .inl ⟨rfl, rfl⟩⟩
  | @sequenceMore S S₁ S₂ S₃ l r e h hr hx _ ih =>
    intro hS'
    obtain ⟨rs, hparts, hrest⟩ := ih hS'
    refine ⟨r :: rs, by rw [hparts]; simp [Expr.commaParts], .inr ⟨S₁, h, ?_⟩⟩
    have hclosed := hr.not_closed (.inl rfl)
    rcases hrest with ⟨rfl, rfl⟩ | ⟨S', hc, hrest⟩
    · exact .elementsLast hclosed hr (by rw [hS']; decide)
    · exact .elementsMore hclosed hr hc hrest
  | _ => trivial

/-- An expression that is no comma is the only one of its `commaParts`. -/
theorem Expr.commaParts_of_binds {e : Expr} (h : .assignment ≤ e.precedence) :
    e.commaParts = [e] := by
  fun_cases commaParts e with
  | case1 left right => exact absurd h (Nat.not_le_of_lt (Nat.lt_succ_self 1))
  | case2 e _ => rfl

/-- What stands between parentheses with commas in it is read as a list of its `commaParts`. -/
theorem Reads.elements_of_expr {t : Dialect} {S S' : Tape} {e : Expr} (h : Reads t .expr S e S')
    (hS' : S'.kind = .punct .rparen) (b : Bool) :
    Reads t (.elements (.punct .rparen) b) S (e.commaParts, false) S' := by
  cases h with
  | expr he hx =>
    obtain ⟨rs, hparts, hrest⟩ := hx.lists hS'
    rw [hparts, Expr.commaParts_of_binds he.binds]
    have hclosed := he.not_closed (.inl rfl)
    rcases hrest with ⟨rfl, rfl⟩ | ⟨S₁, hc, hrest⟩
    · exact .elementsLast hclosed he (by rw [hS']; decide)
    · exact .elementsMore hclosed he hc hrest

/-- An expression in parentheses is read as `Expr.enclosed`. -/
theorem ExprAs.reads_enclosed {t : Dialect} {e : Expr} {P : Tape} (h : ExprAs t e P) {S : Tape}
    (hS : S.kind ≠ .punct .arrow) :
    Reads t .primary (.sign .lparen :: (P ++ .sign .rparen :: S))
      (e.settle t.surface).enclosed S := by
  have hexpr := h.reads (.sign .rparen :: S) rfl nofun
  have hargs : Reads t .arguments (.sign .lparen :: (P ++ .sign .rparen :: S))
      (.list (e.settle t.surface).commaParts false) S :=
    .arguments .cons (hexpr.elements_of_expr rfl false) .cons
  generalize e.settle t.surface = e' at hargs
  fun_cases Expr.enclosed e' with
  -- with a comma there are at least two parts, which the reader keeps as a list
  | case1 left right =>
    have hleft := List.length_pos_iff.2 left.commaParts_ne_nil
    refine .list hargs hS (by simp [Expr.commaParts]) fun x hx => ?_
    have hlength := congrArg List.length hx
    simp only [Expr.commaParts, List.length_append, List.length_singleton] at hlength
    omega
  | case2 e' h' =>
    rw [Expr.commaParts_of_binds (Expr.assignment_le_precedence h')] at hargs
    exact .grouping hargs hS

end Diglot

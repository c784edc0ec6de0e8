import Diglot.Tree.Equality
import Diglot.Proofs.Awaited
import Diglot.Proofs.RoundTrip

/-!
# Compiling a text into its own dialect

A text that is compiled into the dialect it is written in keeps its tokens: only blanks, line breaks
and the places of comments change. Two liberties of the grammar are not kept. A comma after the last
of several things is not written again, and a semicolon that the block dialect does not need is
always written.

- `Lexer.significant`: the significant tokens of a text.
- `Dialect.tidy`: tokens without the semicolons that a dialect does not need.
- `Tape.onto`: the tokens of a tape before others, tidied as they are put there.
- `Tape.Plain`: genuine tokens, and no comma before what closes a list.
- `Spans`: the pieces from a tape to what is left of it; the parts of a phrase span it in turn.
- `Reads.spells`: the tokens of a phrase are those of the tree that it means.
- `compile_significant`: compiling a text into its own dialect keeps its tokens.
-/

namespace Diglot

open Rules

/-! ## Tokens -/

/-- The tokens of a text that are `isSignificant`, without their places. -/
def Lexer.significant (l : Lexer) : List (TokenKind × String) :=
  (l.tokens.filter fun t => t.kind.isSignificant).map fun t => (t.kind, t.text)

/-- `Cut.add` adds a significant token to the words, and nothing else. -/
theorem Cut.words_add (k : TokenKind) (text : String) (c : Cut) :
    (c.add k text).tape.words =
      if k.isSignificant then (k, text) :: c.tape.words else c.tape.words := by
  cases k <;> rfl

/-- The significant tokens are the `words` of the tape that a text is cut into. -/
theorem Lexer.significant_eq (l : Lexer) :
    l.significant = (cut l.dialect l.rest).tape.words := by
  unfold significant
  fun_induction tokens l with
  | case1 l h =>
    have hnil : l.rest = [] := by simpa using h
    rw [hnil, cut_nil, scan, hnil]
    rfl
  | case2 l h ih =>
    rw [cut_scan (by simpa using h), List.filter_cons, Cut.words_add, ← ih]
    split <;> rfl

/-- The kind of the first of some tokens. -/
def firstKind (ws : List (TokenKind × String)) : TokenKind :=
  (ws.head?.map Prod.fst).getD .eof

/-- Tokens without the semicolons that come directly before what `closesConstruct`. -/
def dropSemicolons : List (TokenKind × String) → List (TokenKind × String)
  | [] => []
  | w :: ws =>
    if w.1 = .punct .semicolon ∧ closesConstruct (firstKind ws) = true then dropSemicolons ws
    else w :: dropSemicolons ws

namespace Dialect

/-- Tokens without the semicolons that a dialect does not need, by `dropSemicolons` in the block
dialect. -/
def tidy : Dialect → List (TokenKind × String) → List (TokenKind × String)
  | .brace, ws => ws
  | .block, ws => dropSemicolons ws

/-- One more token before tidy ones, unless it is a semicolon that is not needed there. -/
def put (d : Dialect) (w : TokenKind × String) (ws : List (TokenKind × String)) :
    List (TokenKind × String) :=
  if d.isBlock = true ∧ w.1 = .punct .semicolon ∧ closesConstruct (firstKind ws) = true then ws
  else w :: ws

end Dialect

namespace Tape

variable {d : Dialect}

/-- The tokens of a tape before tidy ones, each by `Dialect.put`. -/
def onto (d : Dialect) : Tape → List (TokenKind × String) → List (TokenKind × String)
  | [], ws => ws
  | .comment _ :: S, ws => onto d S ws
  | .token k t :: S, ws => d.put (k, t) (onto d S ws)

/-- The tokens of a tape, tidied. -/
def tidied (d : Dialect) (S : Tape) : List (TokenKind × String) :=
  S.onto d []

@[simp] theorem onto_nil (ws : List (TokenKind × String)) : onto d [] ws = ws :=
  rfl

@[simp] theorem onto_token (k : TokenKind) (t : String) (S : Tape)
    (ws : List (TokenKind × String)) :
    onto d (.token k t :: S) ws = d.put (k, t) (onto d S ws) :=
  rfl

/-- `onto` goes through tapes in a row, from the last to the first. -/
@[simp] theorem onto_append (S T : Tape) (ws : List (TokenKind × String)) :
    onto d (S ++ T) ws = onto d S (onto d T ws) := by
  induction S with
  | nil => rfl
  | cons p S ih =>
    cases p with
    | comment c => exact ih
    | token k t => exact congrArg (d.put (k, t)) ih

/-- Comments are no tokens. -/
@[simp] theorem onto_comments (cs : List Comment) (ws : List (TokenKind × String)) :
    onto d (cs.map .comment) ws = ws := by
  induction cs with
  | nil => rfl
  | cons c cs ih => exact ih

@[simp] theorem tidied_flush (S : Tape) : S.flush.tidied d = S.tidied d := by
  have h := congrArg (tidied d) S.waiting_append_flush
  simpa [tidied] using h

/-- Without two semicolons one after the other, tidying from the end is the same as looking at
each semicolon by itself, as `Dialect.tidy` does. -/
theorem tidied_eq {S : Tape}
    (h : S.words.IsChain fun w w' => w.1 = .punct .semicolon → w'.1 ≠ .punct .semicolon) :
    S.tidied d = d.tidy S.words := by
  induction S with
  | nil => cases d <;> rfl
  | cons p S ih =>
    cases p with
    | comment c => exact ih h
    | token k t =>
      obtain ⟨hnext, htail⟩ := List.isChain_cons.1 h
      have hput : tidied d (.token k t :: S) = d.put (k, t) (d.tidy (words S)) :=
        congrArg (d.put (k, t)) (ih htail)
      rw [hput]
      cases d with
      | brace => rfl
      | block =>
        -- what follows a semicolon is no semicolon, so it stays and is seen by both
        have hfirst : k = .punct .semicolon →
            firstKind (dropSemicolons (words S)) = firstKind (words S) := by
          intro hk
          cases hwords : (words S) with
          | nil => rfl
          | cons w ws =>
            rw [hwords] at hnext
            rw [dropSemicolons, if_neg fun hw => hnext w rfl hk hw.1]
            rfl
        by_cases hk : k = .punct .semicolon
        · simp [Dialect.put, Dialect.tidy, dropSemicolons, words, hk, hfirst hk, Dialect.isBlock]
        · simp [Dialect.put, Dialect.tidy, dropSemicolons, words, hk]

/-- `tidied` adds no token. -/
theorem mem_words_of_tidied {S : Tape} {w : TokenKind × String} (h : w ∈ S.tidied d) :
    w ∈ (words S) := by
  induction S with
  | nil => exact h
  | cons p S ih =>
    cases p with
    | comment c => exact ih h
    | token k t =>
      have hmem : w ∈ d.put (k, t) (tidied d S) := h
      unfold Dialect.put at hmem
      split at hmem
      · exact List.mem_cons_of_mem _ (ih hmem)
      · rcases List.mem_cons.1 hmem with rfl | hmem
        · exact List.mem_cons_self
        · exact List.mem_cons_of_mem _ (ih hmem)

/-- It takes away nothing but semicolons. -/
theorem mem_onto {P : Tape} {k : TokenKind} {t : String} (hk : k ≠ .punct .semicolon)
    (h : .token k t ∈ P) (ws : List (TokenKind × String)) : (k, t) ∈ P.onto d ws := by
  induction P with
  | nil => cases h
  | cons p P ih =>
    rcases List.mem_cons.1 h with rfl | hmem
    · rw [onto_token, Dialect.put, if_neg fun hw => hk hw.2.1]
      exact List.mem_cons_self
    · cases p with
      | comment c => exact ih hmem
      | token k' t' =>
        rw [onto_token, Dialect.put]
        split
        · exact ih hmem
        · exact List.mem_cons_of_mem _ (ih hmem)

end Tape

/-! ## Plain tapes -/

/-- The kinds of tokens that close a list of names or values. -/
def closesList (k : TokenKind) : Bool :=
  k ∈ [.punct .rparen, .punct .rbrack, .punct .rbrace, .keyword .ofKw]

/-- `Genuine` tokens, and no comma before what closes a list. -/
structure Tape.Plain (d : Dialect) (S : Tape) : Prop where
  genuine : S.Genuine d
  commas : S.words.IsChain fun w w' => w.1 = .punct .comma → closesList w'.1 = false

section Plain

variable {d : Dialect} {S S' : Tape} {k : TokenKind}

/-- What is left of a `Plain` tape is plain, after one token as after a whole phrase. -/
theorem Takes.plain {t : String} (h : Takes S k t S') (hS : S.Plain d) : S'.Plain d where
  genuine := h.genuine hS.genuine
  commas := by
    have hcommas := hS.commas
    rw [h.words_eq] at hcommas
    exact (List.isChain_cons.1 hcommas).2

theorem Passes.plain (h : Passes S k S') (hS : S.Plain d) : S'.Plain d := by
  obtain ⟨t, ht⟩ := h
  exact ht.plain hS

theorem Flag.plain {b : Bool} (h : Flag k S b S') (hS : S.Plain d) : S'.Plain d := by
  cases h with
  | yes h => exact h.plain hS
  | no _ => exact hS

theorem PassesIf.plain {b : Bool} (h : PassesIf k b S S') (hS : S.Plain d) : S'.Plain d := by
  cases h with
  | yes h => exact h.plain hS
  | no => exact hS

theorem Perhaps.plain {α : Type} {means : TokenKind → Option α} {a : Option α}
    (h : Perhaps means S a S') (hS : S.Plain d) : S'.Plain d := by
  cases h with
  | some h _ => exact h.plain hS
  | none _ => exact hS

theorem Tape.Plain.flush (hS : S.Plain d) : S.flush.Plain d where
  genuine := hS.genuine.flush
  commas := by
    rw [Tape.words_flush]
    exact hS.commas

/-- What a derivation leaves of a `Plain` tape is plain. -/
theorem Reads.plain {d' : Dialect} {φ : Phrase} {a : φ.Out} (h : Reads d φ S a S') :
    S.Plain d' → S'.Plain d' := by
  induction h <;> grind only [→ Takes.plain, → Passes.plain, → Flag.plain, → PassesIf.plain,
    → Perhaps.plain, → Tape.Plain.flush]

/-- `firstKind` of the words is the `kind` that is read first. -/
theorem Tape.firstKind_words (S : Tape) : firstKind S.words = S.kind := by
  induction S with
  | nil => rfl
  | cons p S ih =>
    cases p with
    | comment c => exact ih
    | token k t => rfl

/-- After a comma of a `Plain` tape no list is closed. -/
theorem Tape.Plain.not_closesList (hS : S.Plain d) (h : Passes S (.punct .comma) S') :
    closesList S'.kind = false := by
  obtain ⟨t, ht⟩ := h
  have hcommas := hS.commas
  rw [ht.words_eq] at hcommas
  rw [← S'.firstKind_words]
  cases hwords : S'.words with
  | nil => rfl
  | cons w ws =>
    rw [hwords] at hcommas
    exact (List.isChain_cons_cons.1 hcommas).1 rfl

end Plain

/-! ## The tokens of a phrase -/

section Tokens

variable {d : Dialect} {S S' : Tape}

/-- From a `Plain` tape to what is left of it stand certain pieces, apart from semicolons that
are not needed. What is left is plain again, so that one span can follow another. -/
def Spans (d : Dialect) (S P S' : Tape) : Prop :=
  S.Plain d → S'.Plain d ∧ S.tidied d = P.onto d (S'.tidied d)

namespace Spans

variable {P Q S₁ S₂ : Tape}

theorem refl (d : Dialect) (S : Tape) : Spans d S [] S :=
  fun hS => ⟨hS, rfl⟩

/-- One span after another. -/
theorem trans (h : Spans d S P S₁) (h' : Spans d S₁ Q S₂) : Spans d S (P ++ Q) S₂ := by
  intro hS
  obtain ⟨hS₁, hP⟩ := h hS
  obtain ⟨hS₂, hQ⟩ := h' hS₁
  exact ⟨hS₂, by rw [hP, hQ, Tape.onto_append]⟩

/-- The tokens of a span, as its pieces spell them. -/
theorem spells (h : Spans d S P S') (hP : P = Q) (hS : S.Plain d) :
    S.tidied d = Q.onto d (S'.tidied d) := by
  rw [(h hS).2, hP]

/-- The pieces of a value and those that follow it are the pieces of a larger value, from which
reading goes on. -/
theorem extend {L L' : Tape} (h : Spans d S P S₁) (hL : L ++ P = L')
    (hrest : S₁.Plain d → L'.onto d (S₁.tidied d) = Q.onto d (S₂.tidied d)) (hS : S.Plain d) :
    L.onto d (S.tidied d) = Q.onto d (S₂.tidied d) := by
  obtain ⟨hS₁, hP⟩ := h hS
  rw [hP, ← Tape.onto_append, hL]
  exact hrest hS₁

end Spans

/-- A token that `Takes` goes past is put before what is left. -/
theorem Takes.tidied_eq {k : TokenKind} {t : String} (h : Takes S k t S') :
    S.tidied d = d.put (k, t) (S'.tidied d) := by
  induction h with
  | token k t S => rfl
  | comment c _ ih => exact ih

/-- So it is a span of its own. -/
theorem Takes.spans {k : TokenKind} {t : String} (h : Takes S k t S') :
    Spans d S [.token k t] S' :=
  fun hS => ⟨h.plain hS, h.tidied_eq⟩

theorem Takes.spans_name {n : String} (h : Takes S .symbol n S') : Spans d S [.name n] S' :=
  h.spans

/-- A sign spans itself, since its `spelling` is fixed. -/
theorem Passes.spans_sign {p : Punct} (h : Passes S (.punct p) S') : Spans d S [.sign p] S' := by
  intro hS
  obtain ⟨t, ht⟩ := h
  obtain rfl : t = p.spelling := ht.genuine_token hS.genuine
  exact ht.spans hS

/-- So does a reserved word. -/
theorem Passes.spans_word {w : Keyword} (h : Passes S (.keyword w) S') :
    Spans d S [.word w] S' := by
  intro hS
  obtain ⟨t, ht⟩ := h
  obtain rfl : t = w.spelling := (ht.genuine_token hS.genuine).2
  exact ht.spans hS

theorem Passes.spans_function (h : Passes S d.functionWord S') :
    Spans d S (functionPieces d []) S' := by
  cases d <;> exact h.spans_word

theorem Passes.spans_open (h : Passes S d.blockOpen S') :
    Spans d S [.token d.blockOpen d.surface.blockOpen] S' := by
  cases d with
  | brace => exact h.spans_sign
  | block => exact h.spans_word

theorem Passes.spans_close (h : Passes S d.blockClose S') :
    Spans d S [.token d.blockClose d.surface.blockClose] S' := by
  cases d with
  | brace => exact h.spans_sign
  | block => exact h.spans_word

/-- A word that `namesMember` is of the kind that `Dialect.wordKind` gives it. -/
theorem Takes.kind_of_namesMember {k : TokenKind} {n : String} (h : Takes S k n S')
    (hS : S.Plain d) (hk : k.namesMember = true) : k = d.wordKind n := by
  have hgenuine := h.genuine_token hS.genuine
  cases k with
  | symbol => exact (Lexeme.wordKind_of_isName hgenuine).symm
  | boolean =>
    have hbool : n = "true" ∨ n = "false" := hgenuine
    rw [Dialect.wordKind, if_pos hbool]
  | keyword w =>
    obtain ⟨hw, rfl⟩ : w ∈ d.keywords ∧ n = w.spelling := hgenuine
    exact (Lexeme.wordKind_spelling w hw).symm
  | _ => cases hk

/-- So the name of a member spans `Expr.memberPieces`. -/
theorem Takes.spans_member {k : TokenKind} {n : String} (h : Takes S k n S')
    (hk : k.namesMember = true) : Spans d S [.token (d.wordKind n) n] S' := by
  intro hS
  rw [← h.kind_of_namesMember hS hk]
  exact h.spans hS

/-- An operator spans the token that `UnaryOp.kind` and its spelling make. -/
theorem Passes.spans_unaryOp {k : TokenKind} {op : UnaryOp} (h : Passes S k S')
    (hk : unaryOp? k = some op) : Spans d S [.token op.kind op.spelling] S' := by
  unfold unaryOp? at hk
  split at hk <;> cases hk <;> first | exact h.spans_sign | exact h.spans_word

theorem Passes.spans_infixOp {k : TokenKind} {op : BinaryOp} (h : Passes S k S')
    (hk : infixOp? k = some op) : Spans d S [.token op.kind op.spelling] S' := by
  unfold infixOp? at hk
  split at hk <;> cases hk <;> first | exact h.spans_sign | exact h.spans_word

theorem Passes.spans_stepOp {k : TokenKind} {op : StepOp} (h : Passes S k S')
    (hk : stepOp? k = some op) : Spans d S [.token op.kind op.spelling] S' := by
  unfold stepOp? at hk
  split at hk <;> cases hk <;> exact h.spans_sign

theorem Passes.spans_varKeyword {k : TokenKind} {kw : VarKeyword} (h : Passes S k S')
    (hk : varKeyword? k = some kw) : Spans d S [.word kw.word] S' := by
  unfold varKeyword? at hk
  split at hk <;> cases hk <;> exact h.spans_word

/-- The spelling of an assignment is that of the operator that it is read as. -/
theorem Takes.spans_assign {t : String} {op : BinaryOp} (h : Takes S .assign t S')
    (ht : BinaryOp.ofSpelling? t = some op) (hop : op.precedence = .assignment) :
    Spans d S [.token op.kind op.spelling] S' := by
  have hspelling : op.spelling = t := by simpa using List.find?_some ht
  rw [kind_of_assignment hop, hspelling]
  exact h.spans

/-- A word that may be left out spans `flagPieces`. -/
theorem Flag.spans {w : Keyword} {b : Bool} (h : Flag (.keyword w) S b S') :
    Spans d S (flagPieces w b) S' := by
  cases h with
  | yes h => exact h.spans_word
  | no _ => exact .refl d S

theorem Perhaps.spans {kw : Option VarKeyword} (h : Perhaps varKeyword? S kw S') :
    Spans d S (loopWord kw) S' := by
  cases h with
  | some h hk => exact h.spans_varKeyword hk
  | none _ => exact .refl d S

/-- Comments that wait span themselves. -/
theorem Tape.spans_flush (S : Tape) : Spans d S (S.waiting.map .comment) S.flush := by
  intro hS
  exact ⟨hS.flush, by simp⟩

/-- Before what `closesConstruct`, the block dialect needs no semicolon. -/
theorem tidied_semicolon (hd : d.isBlock = true) (h : closesConstruct S.kind = true) :
    Tape.onto d [.sign .semicolon] (S.tidied d) = S.tidied d := by
  have hfirst : closesConstruct (firstKind (S.tidied d)) = true := by
    induction S with
    | nil => rfl
    | cons p S ih =>
      cases p with
      | comment c => exact ih h
      | token k t =>
        have hk : k ≠ .punct .semicolon := by
          rintro rfl
          cases h
        show closesConstruct (firstKind (d.put (k, t) (Tape.tidied d S))) = true
        rw [Dialect.put, if_neg fun hw => hk hw.2.1]
        exact h
  exact if_pos ⟨hd, rfl, hfirst⟩

end Tokens

/-- The tokens of a phrase are those of the pieces of what it means, apart from semicolons that
are not needed. A phrase that is a list with commas says so where something closes it. -/
def Phrase.Spells (d : Dialect) : (φ : Phrase) → Tape → φ.Out → Tape → Prop
  | .names, S, ns, S' =>
    closesList S'.kind = true → S.tidied d = (namePieces ns).onto d (S'.tidied d)
  | .block, S, body, S' =>
    S.tidied d = (blockPieces d (Declaration.piecesOf d body)).onto d (S'.tidied d)
  | .signature, S, ps, S' => S.tidied d = (signaturePieces ps).onto d (S'.tidied d)
  | .arguments, S, e, S' =>
    ∃ es, e = .list es false ∧
      S.tidied d = (argumentPieces (Expr.piecesOf d es) false).onto d (S'.tidied d)
  | .primary, S, e, S' | .member, S, e, S' | .step, S, e, S' | .unary, S, e, S'
  | .climb _, S, e, S' | .assignment, S, e, S' | .expr, S, e, S' =>
    S.tidied d = (e.pieces d).onto d (S'.tidied d)
  | .pathFrom l, S, e, S' | .memberFrom l, S, e, S' | .climbFrom _ l, S, e, S'
  | .sequenceFrom l, S, e, S' =>
    (l.pieces d).onto d (S.tidied d) = (e.pieces d).onto d (S'.tidied d)
  | .elements _ afterComma, S, (es, comma), S' =>
    closesList S'.kind = true →
      S.tidied d = (Tape.commas (Expr.piecesOf d es)).onto d (S'.tidied d) ∧
        (es ≠ [] ∨ afterComma = false → comma = false)
  | .entry, S, e, S' => S.tidied d = (e.pieces d).onto d (S'.tidied d)
  | .entries, S, es, S' =>
    closesList S'.kind = true →
      S.tidied d = (Tape.commas (Entry.piecesOf d es)).onto d (S'.tidied d)
  | .endStatement, S, _, S' => S.tidied d = Tape.onto d [.sign .semicolon] (S'.tidied d)
  | .conditional, S, st, S' =>
    S.tidied d = (st.inner d ++ ifEnd d false).onto d (S'.tidied d)
  | .loopHeader, S, (kw, ns, b, e), S' =>
    S.tidied d = (loopWord kw ++ (loopNames ns b ++ .word .ofKw :: e.pieces d)).onto d
      (S'.tidied d)
  | .statement, S, st, S' =>
    S.kind ≠ d.functionWord → S.tidied d = (st.pieces d).onto d (S'.tidied d)
  | .declaration, S, x, S' => S.tidied d = (x.pieces d).onto d (S'.tidied d)
  | .declarations, S, xs, S' => S.tidied d = (Declaration.piecesOf d xs).onto d (S'.tidied d)
  | .importedNames, S, i, S' =>
    ∀ ws, S'.tidied d = Tape.onto d [.sign .semicolon] ws →
      Tape.onto d [.word .importKw] (S.tidied d) = (importPieces i).onto d ws
  | .imports, S, is, S' => S.tidied d = Tape.onto d (is.flatMap importPieces) (S'.tidied d)

theorem blockPieces_brace (P : Tape) :
    blockPieces .brace P = .sign .lbrace :: (P ++ [.sign .rbrace]) :=
  rfl

theorem namePieces_cons_cons (n m : String) (ns : List String) :
    namePieces (n :: m :: ns) = .name n :: .sign .comma :: namePieces (m :: ns) := by
  simp [namePieces, Tape.commas]

/-- The elements of a list of names are the names. -/
theorem commas_piecesOf_symbols (d : Dialect) (ps : List String) :
    Tape.commas (Expr.piecesOf d (ps.map .symbol)) = namePieces ps := by
  have hpieces : Expr.piecesOf d (ps.map .symbol) = ps.map fun n => [.name n] := by
    induction ps with
    | nil => rfl
    | cons n ns ih => simp [Expr.piecesOf, Expr.pieces, ih]
  rw [hpieces, namePieces]

section Phrases

variable {d : Dialect} {S S' : Tape}

/-- What is known of a phrase by `Phrase.Spells`, as a span of a larger one. -/
theorem Reads.spans {P : Tape} {φ : Phrase} {a : φ.Out} (h : Reads d φ S a S')
    (ih : S.Plain d → S.tidied d = P.onto d (S'.tidied d)) : Spans d S P S' :=
  fun hS => ⟨h.plain hS, ih hS⟩

theorem Reads.spans_arguments {e : Expr} (h : Reads d .arguments S e S')
    (ih : S.Plain d → Phrase.Spells d .arguments S e S') : Spans d S (e.pieces d) S' := by
  intro hS
  obtain ⟨es, rfl, hspells⟩ := ih hS
  exact ⟨h.plain hS, hspells⟩

/-- Names between parentheses that turn out to be the parameters of an arrow function:
`signaturePieces`. -/
theorem Reads.spans_parameters {ps : List String} {comma : Bool}
    (h : Reads d .arguments S (.list (ps.map .symbol) comma) S')
    (ih : S.Plain d → Phrase.Spells d .arguments S (.list (ps.map .symbol) comma) S') :
    Spans d S (signaturePieces ps) S' := by
  intro hS
  obtain ⟨es, heq, hspells⟩ := ih hS
  cases heq
  rw [argumentPieces, commas_piecesOf_symbols] at hspells
  exact ⟨h.plain hS, hspells⟩

/-- A value and what is read from it on. -/
theorem Spans.goOn {P Q S₁ : Tape} {φ : Phrase} {a : φ.Out} (h : Spans d S P S₁)
    (hx : Reads d φ S₁ a S')
    (ih : S₁.Plain d → P.onto d (S₁.tidied d) = Q.onto d (S'.tidied d)) : Spans d S Q S' := by
  intro hS
  obtain ⟨hS₁, hP⟩ := h hS
  exact ⟨hx.plain hS₁, hP.trans (ih hS₁)⟩

/-- The variables of a loop, between brackets or not, as `loopNames` has them. -/
theorem Flag.spans_loopNames {S₁ S₂ : Tape} {b : Bool} {ns : List String}
    (h : Flag (.punct .lbrack) S b S₁) (hns : Reads d .names S₁ ns S₂)
    (ih : S₁.Plain d → Phrase.Spells d .names S₁ ns S₂) (hc : PassesIf (.punct .rbrack) b S₂ S')
    (hof : S'.kind = .keyword .ofKw) : Spans d S (loopNames ns b) S' := by
  cases h with
  | yes h =>
    cases hc with
    | yes hc =>
      have hnames := hns.spans fun hS => ih hS (hc.kind_eq ▸ rfl)
      exact h.spans_sign.trans (hnames.trans hc.spans_sign)
  | no _ =>
    cases hc with
    | no => exact hns.spans fun hS => ih hS (hof ▸ rfl)

end Phrases

/-- The tokens of a phrase are those of the tree that it means, by `Phrase.Spells`. -/
theorem Reads.spells {d : Dialect} {φ : Phrase} {S S' : Tape} {a : φ.Out} (h : Reads d φ S a S') :
    S.Plain d → φ.Spells d S a S' := by
  -- In each case the parts of the phrase span what is read, one after the other.
  induction h with
  -- names
  | namesNone _ => exact fun _ _ => rfl
  | namesLast h _ => exact fun hS _ => h.spans_name.spells rfl hS
  | @namesMore S S₁ S₂ S₃ n ns h hc hns ih =>
    intro hS hclose
    cases ns with
    | nil =>
      -- nothing after the comma, so the comma would be the last
      cases hns
      exact absurd hclose (by simp [(h.plain hS).not_closesList hc])
    | cons m ns =>
      have hrest := hns.spans fun hS₂ => ih hS₂ hclose
      exact (h.spans_name.trans (hc.spans_sign.trans hrest)).spells
        (namePieces_cons_cons n m ns).symm hS
  -- blocks and parentheses
  | block h hb hc ih =>
    exact (h.spans_open.trans ((hb.spans ih).trans hc.spans_close)).spells rfl
  | signature h hp hc ih =>
    have hnames := hp.spans fun hS => ih hS (hc.kind_eq ▸ rfl)
    exact (h.spans_sign.trans (hnames.trans hc.spans_sign)).spells rfl
  | @arguments S S₁ S₂ S₃ es comma h he hc ih =>
    intro hS
    obtain ⟨helements, hcomma⟩ := ih (h.plain hS) (hc.kind_eq ▸ rfl)
    obtain rfl := hcomma (.inr rfl)
    have hspans := he.spans fun _ => helements
    exact ⟨es, rfl, (h.spans_sign.trans (hspans.trans hc.spans_sign)).spells rfl hS⟩
  -- names and literals
  | symbol h => exact h.spans_name.spells rfl
  | boolean h | fixnum h _ | flonum h | string h | regexp h => exact h.spans.spells rfl
  -- what stands between brackets
  | object h he hc ih =>
    have hentries := he.spans fun hS => ih hS (hc.kind_eq ▸ rfl)
    exact (h.spans_sign.trans (hentries.trans hc.spans_sign)).spells (by simp [Expr.pieces])
  | array h he hc ih =>
    have helements := he.spans fun hS => (ih hS (hc.kind_eq ▸ rfl)).1
    exact (h.spans_sign.trans (helements.trans hc.spans_sign)).spells (by simp [Expr.pieces])
  | grouping h _ ih =>
    intro hS
    obtain ⟨es, heq, hspells⟩ := ih hS
    cases heq
    exact (h.spans fun _ => hspells).spells
      (by simp [Expr.pieces, Expr.piecesOf, argumentPieces, Tape.commas]) hS
  | list h _ _ _ ih => exact (h.spans_arguments ih).spells rfl
  -- functions
  | functionNamed h hn hp hb ihp ihb =>
    have hrest := (hp.spans ihp).trans (hb.spans ihb)
    have hspans := h.spans_function.trans (hn.spans_name.trans hrest)
    exact hspans.spells (by simp [Expr.pieces, functionPieces])
  | functionBare h _ hp hb ihp ihb =>
    have hspans := h.spans_function.trans ((hp.spans ihp).trans (hb.spans ihb))
    exact hspans.spells (by simp [Expr.pieces, functionPieces])
  | arrow h ha ho hb ihargs ihb =>
    have hopen := Expr.BeginsWith.readsAsBlock hb.begins ho
    have hspans := (h.spans_parameters ihargs).trans (ha.spans_sign.trans (hb.spans ihb))
    exact hspans.spells (by simp [Expr.pieces, hopen, enclosedPieces])
  | arrowBlock h ha hb ihargs ihb =>
    have hspans := (h.spans_parameters ihargs).trans (ha.spans_sign.trans (hb.spans ihb))
    exact hspans.spells (by simp [Expr.pieces])
  -- values and what follows them
  | pathEnd _ | memberEnd _ | climbEnd _ | sequenceEnd _ => exact fun _ => rfl
  | pathMore h hn hk _ ih | memberDot _ h hn hk _ ih =>
    exact (h.spans_sign.trans (hn.spans_member hk)).extend
      (by simp [Expr.pieces, Expr.memberPieces]) ih
  | memberCall _ h _ ihargs ih =>
    exact (h.spans_arguments ihargs).extend (by simp [Expr.pieces]) ih
  | memberIndex _ h hp hc _ ihp ih =>
    exact (h.spans_sign.trans ((hp.spans ihp).trans hc.spans_sign)).extend
      (by simp [Expr.pieces]) ih
  | newBare h hn ht _ ih =>
    have htarget := hn.spans_name.goOn ht ih
    exact (h.spans_word.trans htarget).spells rfl
  | newCall h hn ht ha hx iht ihargs ih =>
    have htarget := hn.spans_name.goOn ht iht
    have hspans := h.spans_word.trans (htarget.trans (ha.spans_arguments ihargs))
    exact (hspans.goOn hx ih).spells rfl
  | member _ he hx ihe ih | climb he hx ihe ih | expr he hx ihe ih =>
    exact ((he.spans ihe).goOn hx ih).spells rfl
  -- operators
  | stepNone _ _ ih | unaryNone _ _ ih | assignmentNone _ _ _ ih => exact ih
  | stepSome he h hk _ ih =>
    exact ((he.spans ih).trans (h.spans_stepOp hk)).spells (by simp [Expr.pieces])
  | unarySome h hk he _ ih =>
    exact ((h.spans_unaryOp hk).trans (he.spans ih)).spells (by simp [Expr.pieces])
  | climbMore h hk _ _ _ hr _ _ ihr ih =>
    have hpieces := Expr.pieces_binary (t := d) (ne_new_of_infixOp? hk) (ne_dot_of_infixOp? hk)
    exact ((h.spans_infixOp hk).trans (hr.spans ihr)).extend (by simp [hpieces]) ih
  | assignmentSome hl h ht hop _ hr ihl ihr =>
    have hpieces := Expr.pieces_binary (t := d) (ne_new_of_assignment hop)
      (ne_dot_of_assignment hop)
    have hspans := (hl.spans ihl).trans ((h.spans_assign ht hop).trans (hr.spans ihr))
    exact hspans.spells (by simp [hpieces])
  | ternary ht h _ hy hc hn iht ihy ihn =>
    have hyes := h.spans_sign.trans (hy.spans ihy)
    have hno := hc.spans_sign.trans (hn.spans ihn)
    exact ((ht.spans iht).trans (hyes.trans hno)).spells (by simp [Expr.pieces])
  | sequenceMore h hr _ ihr ih =>
    have hpieces := Expr.pieces_binary (t := d) (show BinaryOp.comma ≠ .new by decide) (by decide)
    exact (h.spans_sign.trans (hr.spans ihr)).extend (hpieces _ _).symm ih
  -- elements and entries
  | elementsNone _ => exact fun _ _ => ⟨rfl, fun hb => hb.resolve_left (absurd rfl)⟩
  | elementsLast _ he _ ih =>
    intro hS _
    exact ⟨(he.spans ih).spells (by simp [Expr.piecesOf, Tape.commas]) hS, fun _ => rfl⟩
  | @elementsMore S S₁ S₂ S₃ close b comma e es h he hc hes ihe ih =>
    intro hS hclose
    cases es with
    | nil =>
      cases hes
      exact absurd hclose (by simp [(he.plain hS).not_closesList hc])
    | cons e' es =>
      obtain ⟨-, hcomma⟩ := ih (hc.plain (he.plain hS)) hclose
      have hrest := hes.spans fun hS₂ => (ih hS₂ hclose).1
      have hspans := (he.spans ihe).trans (hc.spans_sign.trans hrest)
      exact ⟨hspans.spells (by simp [Expr.piecesOf, Tape.commas_cons_cons]) hS,
        fun _ => hcomma (.inl (List.cons_ne_nil _ _))⟩
  | entryShort h hk _ =>
    exact h.spans.spells (by rw [Entry.pieces, Key.piece_of_ofToken? hk])
  | entryPair h hk hc he ih =>
    have hspans := h.spans.trans (hc.spans_sign.trans (he.spans ih))
    exact hspans.spells (by simp [Entry.pieces, Key.piece_of_ofToken? hk])
  | entriesNone _ => exact fun _ _ => rfl
  | entriesLast _ he _ ih =>
    intro hS _
    exact (he.spans ih).spells (by simp [Entry.piecesOf, Tape.commas]) hS
  | @entriesMore S S₁ S₂ S₃ e es h he hc hes ihe ih =>
    intro hS hclose
    cases es with
    | nil =>
      cases hes
      exact absurd hclose (by simp [(he.plain hS).not_closesList hc])
    | cons e' es =>
      have hrest := hes.spans fun hS₂ => ih hS₂ hclose
      exact ((he.spans ihe).trans (hc.spans_sign.trans hrest)).spells
        (by simp [Entry.piecesOf, Tape.commas_cons_cons]) hS
  -- conditionals and loops
  | endSemicolon h => exact h.spans_sign.spells rfl
  | endClosed hd h => exact fun _ => (tidied_semicolon hd h).symm
  | braceIf hd h ht hc hb _ iht ihb =>
    subst hd
    have htest := h.spans_sign.trans (ht.spans iht)
    have hbranch := hc.spans_sign.trans (hb.spans ihb)
    exact (htest.trans hbranch).spells
      (by simp [Statement.inner, branchPieces, blockPieces_brace, ifEnd])
  | braceIfElse hd h ht hc hb he _ ho iht ihb iho =>
    subst hd
    have htest := h.spans_sign.trans (ht.spans iht)
    have hbranch := hc.spans_sign.trans (hb.spans ihb)
    have helse := he.spans_word.trans (ho.spans iho)
    exact (htest.trans (hbranch.trans helse)).spells
      (by simp [Statement.inner, branchPieces, elsePieces, blockPieces_brace, ifEnd])
  | braceIfElseIf hd h ht hc hb he hi ho iht ihb iho =>
    subst hd
    have htest := h.spans_sign.trans (ht.spans iht)
    have hbranch := hc.spans_sign.trans (hb.spans ihb)
    have helse := he.spans_word.trans (hi.spans_word.trans (ho.spans iho))
    obtain ⟨test, body, other, rfl⟩ := ho.isConditional
    refine (htest.trans (hbranch.trans helse)).spells ?_
    rw [Statement.inner]
    · simp [branchPieces, elseIfPieces, blockPieces_brace]
    · rintro _ ⟨⟩
  | blockIf hd ht h hb he iht ihb =>
    subst hd
    have hbranch := h.spans_word.trans (hb.spans ihb)
    have hspans := (ht.spans iht).trans (hbranch.trans he.spans_word)
    exact hspans.spells (by simp [Statement.inner, branchPieces, ifEnd])
  | blockIfElse hd ht h hb he ho hc iht ihb iho =>
    subst hd
    have hbranch := h.spans_word.trans (hb.spans ihb)
    have helse := he.spans_word.trans ((ho.spans iho).trans hc.spans_word)
    have hspans := (ht.spans iht).trans (hbranch.trans helse)
    exact hspans.spells (by simp [Statement.inner, branchPieces, elsePieces, ifEnd])
  | blockIfElsif hd ht h hb he ho iht ihb iho =>
    subst hd
    have hbranch := h.spans_word.trans (hb.spans ihb)
    have helse := he.spans_word.trans (ho.spans iho)
    obtain ⟨test, body, other, rfl⟩ := ho.isConditional
    refine ((ht.spans iht).trans (hbranch.trans helse)).spells ?_
    rw [Statement.inner]
    · simp [branchPieces, elseIfPieces]
    · rintro _ ⟨⟩
  | loopHeader hk ho hns _ hc h he ihn ihe =>
    have hnames := ho.spans_loopNames hns ihn hc h.kind_eq
    have hvalue := h.spans_word.trans (he.spans ihe)
    exact (hk.spans.trans (hnames.trans hvalue)).spells (by simp)
  -- statements
  | ifStatement h hs ih =>
    intro hS _
    have hspans := h.spans_word.trans (hs.spans ih)
    obtain ⟨test, body, other, rfl⟩ := hs.isConditional
    exact hspans.spells rfl hS
  | braceWhile hd h ho ht hc hb iht ihb | braceFor hd h ho ht hc hb iht ihb =>
    subst hd
    intro hS _
    have hheader := ho.spans_sign.trans (ht.spans iht)
    have hbody := hc.spans_sign.trans (hb.spans ihb)
    exact (h.spans_word.trans (hheader.trans hbody)).spells
      (by simp [Statement.pieces, Statement.framed, Statement.inner, headerPieces]) hS
  | blockWhile hd h ht hb iht ihb | blockFor hd h ht hb iht ihb =>
    subst hd
    intro hS _
    have hspans := h.spans_word.trans ((ht.spans iht).trans (hb.spans ihb))
    exact hspans.spells
      (by simp [Statement.pieces, Statement.framed, Statement.inner, headerPieces]) hS
  | throw h he hs ihe ihs | retSome h _ he hs ihe ihs =>
    intro hS _
    have hspans := h.spans_word.trans ((he.spans ihe).trans (hs.spans ihs))
    exact hspans.spells (by simp [Statement.pieces, Statement.framed, Statement.inner]) hS
  | retNone h _ hs ihs =>
    intro hS _
    exact (h.spans_word.trans (hs.spans ihs)).spells rfl hS
  | blockStatement hb ih =>
    intro hS _
    exact (hb.spans ih).spells (by simp [Statement.pieces, Statement.framed, Statement.inner]) hS
  | exprStatement ho _ he hs ihe ihs =>
    intro hS hf
    have hopen := Expr.BeginsWith.isAmbiguous he.begins ho hf
    refine ((he.spans ihe).trans (hs.spans ihs)).spells ?_ hS
    rw [Statement.pieces, Statement.framed, Statement.inner, hopen]
    · simp [enclosedPieces]
    · rintro _ _ _ ⟨⟩
  -- declarations
  | function he ha h hn hp hb ihp ihb =>
    have hwords := (he.spans (d := d)).trans (ha.spans.trans h.spans_function)
    have hrest := hn.spans_name.trans ((hp.spans ihp).trans (hb.spans ihb))
    exact (hwords.trans hrest).spells (by simp [Declaration.pieces, functionPieces])
  | var he h hk hn _ hs ihs =>
    have hwords := (he.spans (d := d)).trans (h.spans_varKeyword hk)
    have hrest := hn.spans_name.trans (hs.spans ihs)
    exact (hwords.trans hrest).spells (by simp [Declaration.pieces])
  | varValue he h hk hn ha hv hs ihv ihs =>
    have hwords := (he.spans (d := d)).trans (h.spans_varKeyword hk)
    have hvalue := ha.spans.trans ((hv.spans ihv).trans (hs.spans ihs))
    exact (hwords.trans (hn.spans_name.trans hvalue)).spells (by simp [Declaration.pieces])
  | vars he h hk ho hns _ hc ha hv hs ihn ihv ihs =>
    have hnames := hns.spans fun hS => ihn hS (hc.kind_eq ▸ rfl)
    have hwords := (he.spans (d := d)).trans (h.spans_varKeyword hk)
    have htarget := ho.spans_sign.trans (hnames.trans hc.spans_sign)
    have hvalue := ha.spans.trans ((hv.spans ihv).trans (hs.spans ihs))
    exact (hwords.trans (htarget.trans hvalue)).spells (by simp [Declaration.pieces])
  | statement _ _ hf _ _ ih => exact fun hS => ih hS hf
  | @declarationsEnd S _ =>
    exact (Tape.spans_flush S).spells (Declaration.piecesOf_declare ..).symm
  | @declarationsMore S _ _ _ _ hx hxs ihx ih =>
    have hspans := (Tape.spans_flush S).trans ((hx.spans ihx).trans (hxs.spans ih))
    exact hspans.spells
      (by rw [Declaration.piecesOf_append, Declaration.piecesOf_declare, Declaration.piecesOf])
  -- imports
  | importWhole h ha hn hf hp =>
    intro hS ws hend
    have hname := (h.spans_sign (d := d)).trans (ha.spans_word.trans hn.spans_name)
    have hpath := (hf.spans_word (d := d)).trans hp.spans
    rw [(hname.trans hpath hS).2, hend]
    rfl
  | importNames h hn hc hf hp ihn =>
    intro hS ws hend
    have hnames := hn.spans fun hS₁ => ihn hS₁ (hc.kind_eq ▸ rfl)
    have hlist := h.spans_sign.trans (hnames.trans hc.spans_sign)
    have hpath := (hf.spans_word (d := d)).trans hp.spans
    rw [(hlist.trans hpath hS).2, hend]
    simp [importPieces]
  | importsNone _ => exact fun _ => rfl
  | importsMore h hi hs his ihi ihs ih =>
    intro hS
    have hafter := hi.plain (h.plain hS)
    have hnames := ihi (h.plain hS) _ (ihs hafter)
    have hrest := ih (hs.plain hafter)
    simp only [Phrase.Spells] at hrest ⊢
    rw [(h.spans_word hS).2, hnames, hrest, List.flatMap_cons, Tape.onto_append]

/-! ## Whole files -/

section Files

variable {d : Dialect}

/-- A module line spans `modulePieces`. -/
theorem ModuleLine.spans {S S' : Tape} {m : Option String} (h : ModuleLine d S m S') :
    Spans d S (modulePieces m) S' := by
  cases h with
  | none _ => exact .refl d S
  | some h hn hs => exact h.spans_word.trans (hn.spans_name.trans (hs.spans hs.spells))

theorem BeforeImports.spans {S S' : Tape} {cs : List Comment} (h : BeforeImports S cs S') :
    Spans d S (cs.map .comment) S' := by
  cases h with
  | taken _ => exact S.spans_flush
  | kept _ => exact .refl d S

/-- The tokens of a file are those of `filePieces` of its program. -/
theorem ReadsProgram.spells {S : Tape} {trailer : Option String} {p : Program}
    (h : ReadsProgram d S trailer p) (hS : S.Plain d) :
    S.tidied d = Tape.tidied d (filePieces d p ++ [.token .eof ""]) := by
  obtain @⟨S₁, S₂, S₃, S₄, m, cs, is, body, -, hm, hcs, his, hb, rfl⟩ := h
  have htop := S.spans_flush.trans (hm.spans.trans hcs.spans)
  have hrest := (his.spans his.spells).trans (hb.spans hb.spells)
  rw [(htop.trans hrest hS).2]
  simp [Tape.tidied, filePieces]

/-- `Program.promote` moves comments and does not touch the tokens of a file. -/
theorem tidied_promote {p : Program} (h : p.replaceFinals p.finals = p) (S : Tape) :
    Tape.tidied d (filePieces d p.promote ++ S) = Tape.tidied d (filePieces d p ++ S) := by
  have hself : filePieces d p = filePieces d (p.replaceFinals []) ++ p.finals.map .comment := by
    rw [← filePieces_replaceFinals, h]
  have hpromote : filePieces d p.promote = filePieces d (p.replaceFinals []) ++
      (Comment.promote p.finals p.trailer).1.map .comment :=
    filePieces_replaceFinals _
  rw [hself, hpromote]
  simp [Tape.tidied]

end Files

/-- **Compiling a text into its own dialect keeps its tokens**, where the text does not use what is
written in one way only: a comma after the last of several things, a module line between braces, a
semicolon that the block dialect does not need. -/
theorem compile_significant {d : Dialect} {file text : String} {p? : Option Program}
    (h : parseText d file text = .ok p?)
    (hdivide : (.assign, "/=") ∉ (Lexer.ofText d file text).significant)
    (hmodule : d = .brace → ∀ p ∈ p?, p.moduleName = none)
    (hcomma : (Lexer.ofText d file text).significant.IsChain fun w w' =>
      w.1 = .punct .comma → closesList w'.1 = false) :
    ∃ out, compile d d file text = .ok out ∧
      d.tidy (Lexer.ofText d file out).significant =
        d.tidy (Lexer.ofText d file text).significant := by
  rw [Lexer.significant_eq] at hdivide hcomma
  cases p? with
  | none =>
    have hblank := parseText_cases d file text
    rw [h] at hblank
    have hend : (cut d text.toList).tape = (cut d "".toList).tape := by
      rw [(proper_cut d text.toList).eq_end hblank.1 hblank.2.1, String.toList_empty, cut_nil]
    refine ⟨"", by rw [compile, h]; rfl, ?_⟩
    rw [Lexer.significant_eq, Lexer.significant_eq]
    exact congrArg (fun S => d.tidy S.words) hend.symm
  | some p =>
    have hreads := reads_of_parseText h
    have hspells := hreads.spells ⟨(proper_cut d text.toList).allGenuine, hcomma⟩
    obtain ⟨printed, hprinted⟩ := exists_printedAs h (parsed_of_parseText h).1.free_in
    -- without a module line in braces nothing is lowered
    have hlower : p.lower d = p := Program.lower_eq_self fun hd => hmodule hd p rfl
    have hends := hprinted.ends
    have hpieces := hprinted.reads
    have hcut := hprinted.cut
    rw [hlower] at hends hpieces hcut
    rw [← tidied_promote hends] at hspells
    have hspoilt : ¬(cut d printed.toList).Spoilt (filePieces d p.promote) := by
      intro hspoilt
      have hmem : (.assign, "/=") ∈ Tape.tidied d (filePieces d p.promote ++ [.token .eof ""]) :=
        Tape.mem_onto (show TokenKind.assign ≠ .punct .semicolon by decide)
          (List.mem_append_left _ hspoilt.mem) []
      rw [← hspells] at hmem
      exact hdivide (Tape.mem_words_of_tidied hmem)
    refine ⟨printed, by rw [compile, h]; exact hprinted.printed, ?_⟩
    rw [Lexer.significant_eq, Lexer.significant_eq]
    show d.tidy (cut d printed.toList).tape.words = d.tidy (cut d text.toList).tape.words
    rw [hcut.resolve_right hspoilt, ← Tape.tidied_eq (not_accepts_semicolons hpieces.accepts),
      ← Tape.tidied_eq (not_accepts_semicolons hreads.accepts), hspells]

/-- The semicolon that is written before `end` is not needed, and tidied away. -/
theorem compile_significant_branch :
    ∃ out, compile .block .block "a" "if x then f(y, 1) end" = .ok out ∧
      Dialect.tidy .block (Lexer.ofText .block "a" out).significant =
        [(.keyword .ifKw, "if"), (.symbol, "x"), (.keyword .thenKw, "then"), (.symbol, "f"),
          (.punct .lparen, "("), (.symbol, "y"), (.punct .comma, ","), (.fixnum, "1"),
          (.punct .rparen, ")"), (.keyword .endKw, "end"), (.eof, "")] := by
  have hparse : parseText .block "a" "if x then f(y, 1) end" = .ok (some
      { leading := [], moduleName := none, imports := [],
        body := [.statement (.ifThen (.symbol "x")
          [.statement (.expr (.call (.symbol "f")
            (.list [.symbol "y", .literal (.fixnum 1 "1")] false)))] none)],
        trailer := "" }) := by
    refine eq_ok_of_toOption ?_
    rw [parseText, parse, Lexer.run, Lexer.tokens_ofText]
    decide +kernel
  have htokens : (Lexer.ofText .block "a" "if x then f(y, 1) end").significant =
      [(.keyword .ifKw, "if"), (.symbol, "x"), (.keyword .thenKw, "then"), (.symbol, "f"),
        (.punct .lparen, "("), (.symbol, "y"), (.punct .comma, ","), (.fixnum, "1"),
        (.punct .rparen, ")"), (.keyword .endKw, "end"), (.eof, "")] := by
    rw [Lexer.significant, Lexer.tokens_ofText]
    decide +kernel
  have hkept := compile_significant hparse (by rw [htokens]; decide) (by rintro ⟨⟩)
    (by rw [htokens]; decide)
  rw [htokens] at hkept
  exact hkept

end Diglot

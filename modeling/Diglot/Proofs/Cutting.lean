import Diglot.Tree.Equality
import Diglot.Proofs.Classification
import Diglot.Proofs.Completeness

/-!
# From text to tape

A text cut into its tokens, without their places: the tape that the grammar reads and the trailer,
if there is one. Reading a text is reading its tape, so the grammar's soundness and completeness
carry over to texts.

- `cut`: the tape and the trailer of a text.
- `Lexer.tape_reader`: the reader of a text has that tape before it.
- `proper_cut`: the tape is proper.
- `parseText_cases`, `parseText_of_reads`: a text holds a program exactly when one is derived.
-/

namespace Diglot

open Lexeme

/-! ## Cutting -/

/-- A text cut into pieces: its `Tape`, and the trailer if it has one. -/
structure Cut where
  tape : Tape
  trailer : Option String

namespace Cut

/-- One more token in front. Blanks leave no trace, and the trailer is not part of the `Tape`. -/
def add (k : TokenKind) (text : String) (c : Cut) : Cut :=
  match k with
  | .newline | .whitespace => c
  | .lineComment => { c with tape := .comment ⟨.line, text⟩ :: c.tape }
  | .blockComment => { c with tape := .comment ⟨.block, text⟩ :: c.tape }
  | .outputComment => { c with trailer := some text }
  | k => { c with tape := .token k text :: c.tape }

/-- Pieces in front of a tape. -/
def prepend (P : Tape) (c : Cut) : Cut :=
  { c with tape := P ++ c.tape }

@[simp] theorem prepend_nil (c : Cut) : c.prepend [] = c :=
  rfl

@[simp] theorem prepend_prepend (P Q : Tape) (c : Cut) :
    (c.prepend Q).prepend P = c.prepend (P ++ Q) := by
  simp [prepend]

@[simp] theorem tape_prepend (P : Tape) (c : Cut) : (c.prepend P).tape = P ++ c.tape :=
  rfl

@[simp] theorem trailer_prepend (P : Tape) (c : Cut) : (c.prepend P).trailer = c.trailer :=
  rfl

/-- Only an `outputComment` changes the trailer. -/
theorem trailer_add {k : TokenKind} (hk : k ≠ .outputComment) (text : String) (c : Cut) :
    (c.add k text).trailer = c.trailer := by
  cases k <;> first | rfl | exact absurd rfl hk

end Cut

/-- The tape and the trailer of a text, one token after the other as `classify` finds them. -/
def cut (d : Dialect) (cs : List Char) : Cut :=
  if cs.isEmpty then { tape := [.token .eof ""], trailer := none }
  else
    (cut d (cs.drop (classify d cs).2)).add (classify d cs).1
      (String.ofList (cs.take (classify d cs).2))
termination_by cs.length
decreasing_by
  rename_i h
  have hpos := classify_pos d cs
  have hlen := List.length_pos_iff.2 (show cs ≠ [] by simpa using h)
  rw [List.length_drop]
  omega

variable {d : Dialect} {cs text rest : List Char} {k : TokenKind}

@[simp] theorem cut_nil (d : Dialect) :
    cut d [] = { tape := [.token .eof ""], trailer := none } := by
  rw [cut]
  rfl

/-- The recursion of `cut`, read forwards. -/
theorem cut_of_ne_nil (hcs : cs ≠ []) :
    cut d cs = (cut d (cs.drop (classify d cs).2)).add (classify d cs).1
      (String.ofList (cs.take (classify d cs).2)) := by
  rw [cut, if_neg (by simpa using hcs)]

theorem cut_of_classify {n : Nat} (hcs : cs ≠ []) (h : classify d cs = (k, n)) :
    cut d cs = (cut d (cs.drop n)).add k (String.ofList (cs.take n)) := by
  rw [cut_of_ne_nil hcs, h]

/-- A token is cut off where `classify` finds it first. -/
theorem cut_append (htext : text ≠ []) (h : classify d (text ++ rest) = (k, text.length)) :
    cut d (text ++ rest) = (cut d rest).add k (String.ofList text) := by
  rw [cut_of_ne_nil (by simp [htext]), h, List.drop_left, List.take_left]

/-! ## Blanks -/

@[simp] theorem cut_newline (d : Dialect) (rest : List Char) :
    cut d ('\n' :: rest) = cut d rest := by
  have hclass : classify d ('\n' :: rest) = (.newline, 1) := by cases d <;> rfl
  rw [cut_of_classify (by simp) hclass]
  rfl

/-- Blanks are cut off together: `cut` does not see a run of them. -/
theorem cut_drop_run (d : Dialect) (cs : List Char) :
    cut d (cs.drop (run isSpace cs)) = cut d cs := by
  cases cs with
  | nil => rfl
  | cons c cs =>
    cases hc : isSpace c with
    | false =>
      have hzero : run isSpace (c :: cs) = 0 := by simp [run, hc]
      rw [hzero, List.drop_zero]
    | true =>
      by_cases hnewline : newline (c :: cs) = 0
      · rw [cut_of_classify (by simp) (classify_whitespace d hc hnewline)]
        rfl
      · -- a carriage return alone is a blank, but with a line feed it is a line break
        unfold newline at hnewline
        split at hnewline
        · next tail heq =>
          rw [heq]
          have hclass : classify d ('\r' :: '\n' :: tail) = (.newline, 2) := by
            cases d <;> rfl
          rw [cut_of_classify (by simp) hclass]
          exact cut_newline d tail
        · next tail heq =>
          obtain ⟨rfl, -⟩ := List.cons.inj heq
          exact absurd hc (by decide)
        · exact absurd rfl hnewline

/-- `cut` does not see a blank at the start of a text. -/
theorem cut_of_isSpace (d : Dialect) {c : Char} (hc : isSpace c = true) (rest : List Char) :
    cut d (c :: rest) = cut d rest := by
  have hrun : (c :: rest).drop (run isSpace (c :: rest)) = rest.drop (run isSpace rest) := by
    simp [run, hc]
  rw [← cut_drop_run, hrun, cut_drop_run]

@[simp] theorem cut_space (d : Dialect) (rest : List Char) : cut d (' ' :: rest) = cut d rest :=
  cut_of_isSpace d rfl rest

/-- Spaces have no pieces. -/
theorem cut_spaces (d : Dialect) {blanks : List Char} (h : ∀ c ∈ blanks, c = ' ')
    (rest : List Char) : cut d (blanks ++ rest) = cut d rest := by
  induction blanks with
  | nil => rfl
  | cons c blanks ih =>
    obtain rfl := h c (by simp)
    rw [List.cons_append, cut_space]
    exact ih fun c hc => h c (List.mem_cons_of_mem _ hc)

/-! ## The tape is proper -/

/-- No token of a text has the kind `eof`: it is given at the end of the text only. -/
theorem kind_classify_ne_eof (d : Dialect) (hcs : cs ≠ []) : (classify d cs).1 ≠ .eof := by
  intro hk
  have hgenuine := genuine_classify d hcs
  rw [hk] at hgenuine
  have hpos := classify_pos d cs
  have hlen : (String.ofList (cs.take (classify d cs).2)).length = 0 :=
    congrArg String.length hgenuine
  rw [String.length_ofList, List.length_take] at hlen
  have := List.length_pos_iff.2 hcs
  omega

/-- A piece that is `Genuine`, in front of a `Proper` tape, makes a `Proper` tape. -/
theorem Tape.Proper.cons {S : Tape} {p : Piece} (hS : S.Proper d)
    (hp : match p with
      | .token k t => k ≠ .eof ∧ Diglot.Genuine d t k
      | .comment ⟨.line, t⟩ => Diglot.Genuine d t .lineComment
      | .comment ⟨.block, t⟩ => Diglot.Genuine d t .blockComment) : Tape.Proper d (p :: S) where
  genuine k t ht := by
    rcases List.mem_cons.1 ht with rfl | ht
    · exact hp.2
    · exact hS.genuine k t ht
  line t ht := by
    rcases List.mem_cons.1 ht with rfl | ht
    · exact hp
    · exact hS.line t ht
  block t ht := by
    rcases List.mem_cons.1 ht with rfl | ht
    · exact hp
    · exact hS.block t ht
  ends := by
    obtain ⟨init, t, rfl, hinit⟩ := hS.ends
    -- the new piece is in front, so the mark of the end stays where it is
    refine ⟨p :: init, t, rfl, fun u hu => ?_⟩
    rcases List.mem_cons.1 hu with rfl | hu
    · exact hp.1 rfl
    · exact hinit u hu

/-- The tape of a text is `Tape.Proper`. -/
theorem proper_cut (d : Dialect) (cs : List Char) : (cut d cs).tape.Proper d := by
  fun_induction cut d cs with
  | case1 cs h =>
    refine ⟨fun k t ht => ?_, by simp, by simp, [], "", rfl, by simp⟩
    obtain ⟨rfl, rfl⟩ : k = .eof ∧ t = "" := by simpa using ht
    rfl
  | case2 cs h ih =>
    have hne : cs ≠ [] := by simpa using h
    have hgenuine := genuine_classify d hne
    have heof := kind_classify_ne_eof d hne
    generalize (classify d cs).1 = k at hgenuine heof ⊢
    cases k <;> first | exact ih | exact ih.cons hgenuine | exact ih.cons ⟨heof, hgenuine⟩

/-- The trailer of a text is `Genuine`. -/
theorem genuine_trailer {cs : List Char} {text : String}
    (h : (cut d cs).trailer = some text) : Genuine d text .outputComment := by
  fun_induction cut d cs with
  | case1 cs hnil => cases h
  | case2 cs hnil ih =>
    have hgenuine := genuine_classify d (show cs ≠ [] by simpa using hnil)
    by_cases hk : (classify d cs).1 = .outputComment
    · rw [hk] at h hgenuine
      cases h
      exact hgenuine
    · rw [Cut.trailer_add hk] at h
      exact ih h

/-! ## The tape of a text -/

namespace Lexer

/-- The `Reader` of a text. -/
def reader (l : Lexer) : Reader :=
  .ofWords l.loc (Word.gather [] l.tokens)

section Scan

variable {l : Lexer}

/-- The token that `scan` gives is the one that `classify` finds; the lemmas below say so of its
text and of what is left. -/
theorem kind_scan (h : l.rest ≠ []) : l.scan.1.kind = (classify l.dialect l.rest).1 := by
  simp [scan, h]

theorem text_scan (h : l.rest ≠ []) :
    l.scan.1.text = String.ofList (l.rest.take (classify l.dialect l.rest).2) := by
  simp [scan, h]

theorem rest_scan (h : l.rest ≠ []) :
    l.scan.2.rest = l.rest.drop (classify l.dialect l.rest).2 := by
  simp [scan, h]

theorem dialect_scan (h : l.rest ≠ []) : l.scan.2.dialect = l.dialect := by
  simp [scan, h]

/-- The text of a lexer is cut where its first token ends: `scan` and `cut` go together. -/
theorem cut_scan (h : l.rest ≠ []) :
    cut l.dialect l.rest
      = (cut l.scan.2.dialect l.scan.2.rest).add l.scan.1.kind l.scan.1.text := by
  rw [cut_of_ne_nil h, kind_scan h, text_scan h, rest_scan h, dialect_scan h]

end Scan

/-- The words that `Word.gather` makes of a text are the pieces of its tape, after those seen
before. -/
theorem pieces_gather (l : Lexer) (seen : List Comment) :
    (Word.gather seen l.tokens).flatMap Word.pieces
      = seen.map .comment ++ (cut l.dialect l.rest).tape := by
  fun_induction tokens l generalizing seen with
  | case1 l h =>
    have hnil : l.rest = [] := by simpa using h
    simp [scan, hnil, Word.gather, TokenKind.isSignificant, TokenKind.isWhitespace,
      TokenKind.isComment, Word.pieces]
  | case2 l h ih =>
    have hne : l.rest ≠ [] := by simpa using h
    rw [cut_scan hne, Word.gather]
    cases hk : l.scan.1.kind <;>
      simp [TokenKind.isSignificant, TokenKind.isWhitespace, TokenKind.isComment, ih, hk,
        Comment.ofToken?, Cut.add, Word.pieces]

/-- The reader of a text has before it the tape that `cut` gives. -/
theorem tape_reader (l : Lexer) : l.reader.tape = (cut l.dialect l.rest).tape := by
  have hpieces := l.pieces_gather []
  unfold reader
  cases hwords : Word.gather [] l.tokens with
  | nil =>
    -- there is at least the mark of the end
    obtain ⟨init, t, hends, -⟩ := (proper_cut l.dialect l.rest).ends
    rw [hwords, hends] at hpieces
    simp at hpieces
  | cons w ws =>
    rw [hwords] at hpieces
    simpa [Reader.ofWords, Reader.tape, Word.pieces] using hpieces

/-- The trailer that `Token.trailer?` finds is the one that `cut` gives. -/
theorem trailer?_tokens (l : Lexer) : Token.trailer? l.tokens = (cut l.dialect l.rest).trailer := by
  fun_induction tokens l with
  | case1 l h =>
    have hnil : l.rest = [] := by simpa using h
    simp [scan, hnil, Token.trailer?]
  | case2 l h ih =>
    have hne : l.rest ≠ [] := by simpa using h
    rw [cut_scan hne, Token.trailer?, List.find?_cons]
    by_cases hk : l.scan.1.kind = .outputComment
    · simp [hk, Cut.add]
    · rw [Cut.trailer_add hk, ← ih, beq_eq_false_iff_ne.2 hk]
      rfl

/-- The comments of a text are those of its tape: `cut` loses none of what `Comment.ofToken?`
finds. -/
theorem comments_tokens (l : Lexer) :
    (cut l.dialect l.rest).tape.comments = l.tokens.filterMap Comment.ofToken? := by
  fun_induction tokens l with
  | case1 l h =>
    have hnil : l.rest = [] := by simpa using h
    simp [scan, hnil, Comment.ofToken?, Tape.comments]
  | case2 l h ih =>
    have hne : l.rest ≠ [] := by simpa using h
    rw [cut_scan hne, List.filterMap_cons]
    cases hk : l.scan.1.kind <;> simp [Cut.add, ← ih, Tape.comments, Comment.ofToken?, hk]

/-- The tokens of a text, by recursion on a bound for its length. Unlike `tokens` this can be
evaluated by definition. -/
def tokensWithin : Nat → Lexer → List Token
  | 0, l => [l.scan.1]
  | n + 1, l => if l.rest.isEmpty then [l.scan.1] else l.scan.1 :: l.scan.2.tokensWithin n

/-- With a bound that is large enough, `tokensWithin` gives the `tokens`. -/
theorem tokens_eq_tokensWithin {l : Lexer} {n : Nat} (h : l.rest.length ≤ n) :
    l.tokens = l.tokensWithin n := by
  fun_induction tokens l generalizing n with
  | case1 l hnil => cases n <;> simp [tokensWithin, hnil]
  | case2 l hnil ih =>
    have hlt := length_scan_lt (show l.rest ≠ [] by simpa using hnil)
    cases n with
    | zero => omega
    | succ n => simp [tokensWithin, hnil, ih (by omega : l.scan.2.rest.length ≤ n)]

theorem tokens_ofText (d : Dialect) (file text : String) :
    (ofText d file text).tokens = (ofText d file text).tokensWithin text.toList.length :=
  tokens_eq_tokensWithin (Nat.le_refl _)

end Lexer

/-! ## Reading a text -/

theorem eq_ok_of_toOption {ε α : Type} {x : Except ε α} {a : α} (h : x.toOption = some a) :
    x = .ok a := by
  cases x with
  | error e => cases h
  | ok b => exact congrArg Except.ok (Option.some.inj h)

/-- Reading a text is running `Rules.program?` on its reader, with the trailer that `cut` gives. -/
theorem parseText_eq (d : Dialect) (file text : String) :
    parseText d file text = ((Rules.program? d
      (Grammar.ofDepth d (Lexer.ofText d file text).reader.ahead.length)
      (cut d text.toList).trailer).run (Lexer.ofText d file text).reader).map Prod.fst := by
  rw [parseText, parse, Lexer.run, Lexer.trailer?_tokens]
  rfl

/-- What the reader of a text has before it is `Tape.Proper`. -/
theorem proper_reader (l : Lexer) : l.reader.tape.Proper l.dialect := by
  rw [l.tape_reader]
  exact proper_cut l.dialect l.rest

/-- What `parseText` can come to: nothing on a `Blank` tape, a program with `ReadsProgram`, or a
complaint about the source. -/
theorem parseText_cases (d : Dialect) (file text : String) :
    match parseText d file text with
    | .ok none => Blank (cut d text.toList).tape (cut d text.toList).trailer
    | .ok (some p) => ReadsProgram d (cut d text.toList).tape (cut d text.toList).trailer p
    | .error e => ∃ s, e = .source s := by
  have hyields : (Rules.program? d
      (Grammar.ofDepth d (Lexer.ofText d file text).reader.ahead.length)
      (cut d text.toList).trailer).Yields (Lexer.ofText d file text).reader _ :=
    Rules.yields_program? (Grammar.serves_ofDepth d _) (proper_reader (.ofText d file text))
      (Nat.lt_succ_self _)
  rw [Lexer.tape_reader] at hyields
  rw [parseText_eq]
  unfold Parser.Yields at hyields
  split at hyields
  · next p? r' hrun =>
    rw [hrun]
    cases p? <;> exact hyields
  · next e hrun =>
    rw [hrun]
    exact hyields

/-- A program that is derived by `ReadsProgram` from the tape of a text is what the text holds. -/
theorem parseText_of_reads {d : Dialect} {text : String} {p : Program} (file : String)
    (h : ReadsProgram d (cut d text.toList).tape (cut d text.toList).trailer p) :
    parseText d file text = .ok (some p) := by
  have htape : (Lexer.ofText d file text).reader.tape = (cut d text.toList).tape :=
    Lexer.tape_reader _
  rw [← htape] at h
  obtain ⟨r', hrun⟩ := h.run_program? (proper_reader (.ofText d file text))
  rw [parseText_eq, hrun]
  rfl

/-- A text with a `Blank` tape holds no program. -/
theorem parseText_of_blank {d : Dialect} {text : String} (file : String)
    (h : Blank (cut d text.toList).tape (cut d text.toList).trailer) :
    parseText d file text = .ok none := by
  have htape : (Lexer.ofText d file text).reader.tape = (cut d text.toList).tape :=
    Lexer.tape_reader _
  rw [← htape] at h
  have hproper : (Lexer.ofText d file text).reader.tape.Proper d :=
    proper_reader (.ofText d file text)
  obtain ⟨r', hrun⟩ := h.run_program? hproper
  rw [parseText_eq, hrun]
  rfl

/-- The empty text holds no program: its tape is `Blank`. -/
theorem parseText_empty (d : Dialect) (file : String) : parseText d file "" = .ok none := by
  refine parseText_of_blank file ?_
  rw [String.toList_empty, cut_nil]
  exact ⟨rfl, rfl, rfl⟩

/-- The converse of `parseText_of_reads`: a text holds a program only if it is derived from its
tape. -/
theorem reads_of_parseText {d : Dialect} {file text : String} {p : Program}
    (h : parseText d file text = .ok (some p)) :
    ReadsProgram d (cut d text.toList).tape (cut d text.toList).trailer p := by
  have hcases := parseText_cases d file text
  rw [h] at hcases
  exact hcases

/-- A text with a comment at its top, which belongs to the file, and one inside a statement, which
is kept after the statement. -/
theorem parseText_notes :
    parseText .block "a" "// c\nif x then y = 1 + /* d */ 2; end" = .ok (some
      { leading := [⟨.line, "// c"⟩], moduleName := none, imports := [],
        body := [.statement (.ifThen (.symbol "x")
          [.statement (.expr (.binary .assign (.symbol "y")
            (.binary .add (.literal (.fixnum 1 "1")) (.literal (.fixnum 2 "2"))))),
            .comments [⟨.block, "/* d */"⟩]] none)],
        trailer := "" }) := by
  refine eq_ok_of_toOption ?_
  rw [parseText, parse, Lexer.run, Lexer.tokens_ofText]
  decide +kernel

end Diglot

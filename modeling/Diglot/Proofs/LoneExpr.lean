import Diglot.Tree.Equality
import Diglot.Proofs.Awaited
import Diglot.Proofs.RoundTrip

/-!
# Lone expressions

An expression that is a text of its own: how it is read from its tape, and what becomes of it when
it is printed and read again in the same dialect. The text of an expression ends in a token, so no
comment in it is taken for a trailer, and an expression needs no parentheses that it was read
without. What is left to go wrong is the sign `/=`, which begins a regular expression if another
slash follows on its line. Printing puts on one line what may have stood on several.

- `reads_of_parseExpr`, `parseExpr_of_reads`: a text is an expression exactly when it is derived.
- `Expr.not_trails`: the pieces of an expression do not end in a comment.
- `ExprPrintedAs`: an expression with its text, as far as printing and the grammar go.
- `parseExpr_printExpr_iff`: an expression is read back exactly if no sign is spoilt.
-/

namespace Diglot

/-! ## Reading -/

section Reading

open Awaited

variable {d : Dialect} {text : String} {e : Expr}

/-- A text is an expression for `parseExpr` only if it is derived from the tape and nothing but
comments is left. -/
theorem reads_of_parseExpr (h : parseExpr d text = .ok e) :
    ∃ S, Reads d .expr (cut d text.toList).tape e S ∧ S.flush = [.token .eof ""] := by
  -- the rule gives an expression only where the end comes after it
  have hyields : (Rules.loneExpr d
      (Grammar.ofDepth d (Lexer.ofText d exprFile text).reader.ahead.length)).Yields
        (Lexer.ofText d exprFile text).reader fun e _ =>
          ∃ S, Reads d .expr (Lexer.ofText d exprFile text).reader.tape e S ∧
            S.flush = [.token .eof ""] := by
    simp only [Rules.loneExpr, Parser.yields_bind, Parser.yields_consume, Parser.yields_pure]
    refine (Rules.serves_expr (Grammar.serves_ofDepth d _) _
      (proper_reader (.ofText d exprFile text)) (Nat.lt_succ_self _)).mono ?_
    rintro x r' ⟨hx, hproper, -⟩ hk
    refine ⟨_, hx, hproper.flush.eq_end ?_ (Tape.waiting_flush _)⟩
    rw [Tape.kind_flush, r'.kind_tape, hk]
  rw [Lexer.tape_reader] at hyields
  rw [parseExpr, Lexer.run] at h
  unfold Parser.Yields at hyields
  split at hyields
  · next x r' hrun =>
    obtain rfl : x = e := Except.ok.inj ((congrArg (Except.map Prod.fst) hrun).symm.trans h)
    exact hyields
  · next err hrun =>
    cases (congrArg (Except.map Prod.fst) hrun).symm.trans h

/-- The converse of `reads_of_parseExpr`: an expression that is derived from the whole tape of a
text is what the text is. -/
theorem parseExpr_of_reads (h : Reads d .expr (cut d text.toList).tape e [.token .eof ""]) :
    parseExpr d text = .ok e := by
  have htape : (Lexer.ofText d exprFile text).reader.tape = (cut d text.toList).tape :=
    Lexer.tape_reader _
  rw [← htape] at h
  have htokens := (Lexer.ofText d exprFile text).reader.tokens_tape
  have hexpr : Parser.Gives d (Rules.expr d
      (Grammar.ofDepth d (Lexer.ofText d exprFile text).reader.ahead.length)) _ e _ :=
    h.completes _ (Nat.le_refl 1) (Nat.le_of_eq htokens)
  have hlone : Parser.Gives d (Rules.loneExpr d
      (Grammar.ofDepth d (Lexer.ofText d exprFile text).reader.ahead.length)) _ e _ :=
    .bind hexpr (.pass_end (.pure rfl))
  obtain ⟨r', hrun, -⟩ := hlone _ rfl (proper_reader (.ofText d exprFile text))
  exact congrArg (Except.map Prod.fst) hrun

/-- The coarse reading, `Awaited.run`, accepts every tape of which an expression is derived. -/
theorem Reads.accepts_expr {S S' : Tape} (h : Reads d .expr S e S')
    (hend : S'.flush = [.token .eof ""]) : run d (expression ++ [.finished]) S = true := by
  have hmoves : run d (expression ++ [.finished]) S = _ := h.moves _
  have hkind : S'.kind = .eof := by
    rw [← Tape.kind_flush, hend]
    rfl
  rw [hmoves, run_expression (hkind ▸ rfl) (hkind ▸ by decide), ← run_flush, hend]
  rfl

end Reading

/-! ## Pieces that do not end in a comment -/

namespace Tape

variable {P Q : Tape} {Ps : List Tape}

@[simp] theorem not_trails_nil : ¬Trails [] := by
  rintro ⟨P₁, c, P₂, heq, -⟩
  simp at heq

/-- A token in front does not matter for whether a tape `Trails`. -/
@[simp] theorem trails_cons_token {k : TokenKind} {text : String} :
    Trails (.token k text :: P) ↔ P.Trails := by
  refine ⟨?_, fun h => h.after [_]⟩
  rintro ⟨P₁, c, P₂, heq, hidle⟩
  cases P₁ with
  | nil => cases heq
  | cons p P₁ => exact ⟨P₁, c, P₂, (List.cons.inj heq).2, hidle⟩

/-- Where neither part `Trails`, the whole does not. -/
theorem not_trails_append (hP : ¬P.Trails) (hQ : ¬Q.Trails) : ¬Trails (P ++ Q) := by
  rintro ⟨P₁, c, P₂, heq, hidle⟩
  rcases List.append_eq_append_iff.1 heq with ⟨R, rfl, hR⟩ | ⟨R, rfl, hR⟩
  · exact hQ ⟨R, c, P₂, hR, hidle⟩
  · cases R with
    | nil => exact hQ ⟨[], c, P₂, hR.symm, hidle⟩
    | cons p R =>
      obtain ⟨rfl, rfl⟩ := List.cons.inj hR
      exact hP ⟨P₁, c, R, rfl, (idle_append.1 hidle).1⟩

/-- Tapes between commas end in one of the tapes, or are empty. -/
theorem not_trails_commas (h : ∀ P ∈ Ps, ¬P.Trails) : ¬Trails (commas Ps) := by
  induction Ps with
  | nil => exact not_trails_nil
  | cons P Ps ih =>
    rw [List.forall_mem_cons] at h
    cases Ps with
    | nil => simpa [commas] using h.1
    | cons Q Ps =>
      rw [commas_cons_cons]
      exact not_trails_append h.1 (by simpa using ih h.2)

theorem not_trails_argumentPieces (h : ∀ P ∈ Ps, ¬P.Trails) (comma : Bool) :
    ¬Trails (argumentPieces Ps comma) := by
  rw [argumentPieces, trails_cons_token]
  exact not_trails_append (not_trails_commas h) (by cases comma <;> simp)

theorem not_trails_signaturePieces (ps : List String) : ¬Trails (signaturePieces ps) :=
  not_trails_argumentPieces (by simp) false

end Tape

section Trails

open Tape

variable {t : Dialect}

mutual

/-- Comments stand only in the bodies of functions, and these are closed, so no expression
`Trails`. -/
theorem Expr.not_trails : ∀ e : Expr, ¬(e.pieces t).Trails
  | .symbol _ | .literal _ => by simp [Expr.pieces]
  | .grouping inner => by
    simpa [Expr.pieces] using not_trails_append inner.not_trails (by simp)
  | .unary op operand => by
    simpa [Expr.pieces] using operand.not_trails
  | .step op operand => by
    simpa [Expr.pieces] using not_trails_append operand.not_trails (by simp)
  | .binary op left right => by
    have hleft := left.not_trails
    have hright := right.not_trails
    -- a name after a point is a token
    have hmember : ¬Trails (right.memberPieces t) := by
      cases right <;> simp [Expr.memberPieces]
    by_cases hnew : op = .new
    · subst hnew
      simpa [Expr.pieces] using not_trails_append hleft hright
    · by_cases hdot : op = .dot
      · subst hdot
        exact not_trails_append hleft (by simpa using hmember)
      · rw [Expr.pieces_binary hnew hdot]
        exact not_trails_append hleft (by simpa using hright)
  | .ternary test yes no => by
    have hno := no.not_trails
    refine not_trails_append test.not_trails ?_
    rw [trails_cons_token]
    exact not_trails_append yes.not_trails (by simpa using hno)
  | .call callee arguments => by
    rw [Expr.pieces]
    exact not_trails_append callee.not_trails arguments.not_trails
  | .index target position => by
    refine not_trails_append target.not_trails ?_
    rw [trails_cons_token]
    exact not_trails_append position.not_trails (by simp)
  | .object entries => by
    simpa [Expr.pieces] using
      not_trails_append (not_trails_commas (Entry.not_trails_of entries)) (by simp)
  | .list elements comma => not_trails_argumentPieces (Expr.not_trails_of elements) comma
  | .array elements => by
    simpa [Expr.pieces] using
      not_trails_append (not_trails_commas (Expr.not_trails_of elements)) (by simp)
  | .function name params body => by
    have hname : ¬Trails (name.toList.map .name) := by
      cases name <;> simp
    rw [Expr.pieces, functionPieces, trails_cons_token]
    exact not_trails_append hname (not_trails_append (not_trails_signaturePieces params)
      (closed_blockPieces _).not_trails)
  | .arrow params body => by
    have hbody := body.not_trails
    rw [Expr.pieces]
    refine not_trails_append (not_trails_signaturePieces params) ?_
    rw [trails_cons_token, enclosedPieces]
    split
    · simpa using not_trails_append hbody (by simp)
    · exact hbody
  | .arrowBlock params body => by
    rw [Expr.pieces]
    refine not_trails_append (not_trails_signaturePieces params) ?_
    rw [trails_cons_token]
    exact (closed_blockPieces _).not_trails

theorem Expr.not_trails_of : ∀ es : List Expr, ∀ P ∈ Expr.piecesOf t es, ¬P.Trails
  | [] => by simp [Expr.piecesOf]
  | e :: es => List.forall_mem_cons.2 ⟨e.not_trails, Expr.not_trails_of es⟩

theorem Entry.not_trails_of : ∀ es : List Entry, ∀ P ∈ Entry.piecesOf t es, ¬P.Trails
  | [] => by simp [Entry.piecesOf]
  | .shorthand key :: es =>
    List.forall_mem_cons.2 ⟨by simp [Entry.pieces, Key.piece], Entry.not_trails_of es⟩
  | .pair key value :: es =>
    List.forall_mem_cons.2 ⟨by simpa [Entry.pieces, Key.piece] using value.not_trails,
      Entry.not_trails_of es⟩

end

end Trails

/-! ## Printing -/

/-- In a text of an expression, a sign that divides and assigns has begun a regular expression,
as `Cut.Spoilt` says. -/
def Expr.SpoiltIn (t : Dialect) (e : Expr) (text : String) : Prop :=
  (cut t text.toList).Spoilt (e.pieces t)

/-- Without a `divAssign` no sign can be spoilt. -/
theorem Expr.not_spoiltIn {e : Expr} (h : ¬Divides e.nodes) (t : Dialect) (text : String) :
    ¬e.SpoiltIn t text :=
  fun hspoilt => h (e.divides hspoilt.mem)

/-- An expression is printed as a text, whose tape is that of its pieces unless it is `SpoiltIn`
the text, and the grammar derives the expression from these. -/
structure ExprPrintedAs (t : Dialect) (e : Expr) (text : String) : Prop where
  printed : printExpr t e = .ok text
  tape : ¬e.SpoiltIn t text → (cut t text.toList).tape = e.pieces t ++ [.token .eof ""]
  reads : Reads t .expr (e.pieces t ++ [.token .eof ""]) e [.token .eof ""]

section Printing

variable {d : Dialect} {text : String} {e : Expr}

/-- An expression is printed if its nodes are `Parsed` and its pieces are read back. -/
theorem ExprAs.exists_exprPrintedAs (has : ExprAs d e (e.pieces d))
    (hparsed : AllNodes (Node.Parsed d) e.nodes) : ∃ printed, ExprPrintedAs d e printed := by
  have hsettled : AllNodes (Node.Settled d.surface) e.nodes := fun n hn =>
    (hparsed n hn).settled (by rintro rfl ⟨⟩) (by rintro rfl ⟨⟩)
  have hback := has.reads [.token .eof ""] rfl (show TokenKind.eof ≠ .punct .comma by decide)
  rw [e.settle_of_allSettled _ hsettled] at hback
  obtain ⟨printed, hprint, hwrites⟩ := result_of_faultless (e.faultless_doc d.surface hparsed)
  have hfares := has.cuts [] false printed.toList [] nofun hwrites (fun _ => trivial)
    fun htrails => absurd htrails e.not_trails
  rw [List.append_nil, cut_nil] at hfares
  refine ⟨printed, ?_, fun hspoilt => ?_, hback⟩
  · rw [printExpr, Emitter.writeExpr, Expr.fitted_comma]
    exact hprint
  · rw [hfares.whole (by_contra fun hclear => hspoilt (hfares.spoilt hclear))]
    rfl

/-- What has been read by `parseExpr` is printed in its own dialect. -/
theorem exists_exprPrintedAs (h : parseExpr d text = .ok e) :
    ∃ printed, ExprPrintedAs d e printed := by
  obtain ⟨S, hreads, -⟩ := reads_of_parseExpr h
  have hparsed : AllNodes (Node.Parsed d) e.nodes :=
    hreads.parsed (proper_cut d text.toList).allGenuine allNodes_nil
  have hlegible : AllNodes (Node.Legible d) e.nodes := fun n hn =>
    (hparsed n hn).legible fun name hname => ((hparsed n hn).names name hname).free
  have has : ExprAs d e (e.pieces d) := hreads.reprints hlegible
  exact has.exists_exprPrintedAs hparsed

/-- Where no sign is spoilt the text is read back. -/
theorem ExprPrintedAs.parseExpr (h : ExprPrintedAs d e text) (hspoilt : ¬e.SpoiltIn d text) :
    Diglot.parseExpr d text = .ok e := by
  refine parseExpr_of_reads ?_
  rw [h.tape hspoilt]
  exact h.reads

/-- A text that an expression is `SpoiltIn` is no expression. -/
theorem ExprPrintedAs.not_spoiltIn (h : ExprPrintedAs d e text) {e' : Expr}
    (hparse : Diglot.parseExpr d text = .ok e') : ¬e.SpoiltIn d text := by
  rintro ⟨P₁, P₂, cs, S, hP, hS⟩
  obtain ⟨S', hreads, hend⟩ := reads_of_parseExpr hparse
  have hgood := h.reads.accepts_expr rfl
  have hbad := hreads.accepts_expr hend
  rw [hP, List.append_assoc, List.cons_append] at hgood
  rw [hS, not_accepts_regexp hgood] at hbad
  cases hbad

end Printing

/-- **An expression that is printed and read again is the same** exactly if none of its signs `/=`
begins a regular expression in its text, so always if it has none of these signs. A text in which
one does is not an expression at all, so no other expression is ever read. -/
theorem parseExpr_printExpr_iff {d : Dialect} {text : String} {e : Expr}
    (h : parseExpr d text = .ok e) :
    ∃ printed, printExpr d e = .ok printed ∧
      (parseExpr d printed = .ok e ↔ ¬e.SpoiltIn d printed) ∧
      (¬Divides e.nodes → parseExpr d printed = .ok e) ∧
      ∀ e', parseExpr d printed = .ok e' → e' = e := by
  obtain ⟨printed, hprinted⟩ := exists_exprPrintedAs h
  refine ⟨printed, hprinted.printed, ⟨hprinted.not_spoiltIn, hprinted.parseExpr⟩, ?_, ?_⟩
  · exact fun hdivides => hprinted.parseExpr (e.not_spoiltIn hdivides d printed)
  · intro e' he'
    have he := hprinted.parseExpr (hprinted.not_spoiltIn he')
    exact Except.ok.inj (he'.symm.trans he)

/-- What stood on two lines is printed on one, where the sign begins a regular expression. -/
theorem parseExpr_printExpr_iff_lines :
    ∃ e, parseExpr .brace "a /=\nb / c" = .ok e ∧ printExpr .brace e = .ok "a /= b / c" ∧
      (∀ e', parseExpr .brace "a /= b / c" ≠ .ok e') ∧ e.SpoiltIn .brace "a /= b / c" := by
  have hparse : parseExpr .brace "a /=\nb / c" = .ok (.binary .divAssign (.symbol "a")
      (.binary .div (.symbol "b") (.symbol "c"))) := by
    refine eq_ok_of_toOption ?_
    rw [parseExpr, Lexer.run, Lexer.tokens_ofText]
    decide +kernel
  have hrefused : (parseExpr .brace "a /= b / c").isOk = false := by
    rw [parseExpr, Lexer.run, Lexer.tokens_ofText]
    decide +kernel
  have hnone : ∀ e', parseExpr .brace "a /= b / c" ≠ .ok e' := by
    intro e' he'
    rw [he'] at hrefused
    cases hrefused
  have hprint : printExpr .brace (.binary .divAssign (.symbol "a")
      (.binary .div (.symbol "b") (.symbol "c"))) = .ok "a /= b / c" := rfl
  obtain ⟨printed, hprinted, hiff, -⟩ := parseExpr_printExpr_iff hparse
  obtain rfl : "a /= b / c" = printed := Except.ok.inj (hprint.symm.trans hprinted)
  exact ⟨_, hparse, hprint, hnone, by_contra fun hspoilt => hnone _ (hiff.2 hspoilt)⟩

end Diglot

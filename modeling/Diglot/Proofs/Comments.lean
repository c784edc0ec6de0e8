import Diglot.Proofs.Cutting
import Diglot.Proofs.Nodes

/-!
# No comment is lost

The grammar lets comments wait while it goes past tokens, and each list of declarations takes those
that wait at its start, before each declaration and at its end. So the comments on a tape are, in
order, those of the tree that is read from it and those that are left. This is shown for every
phrase, by induction on its derivation; a phrase that goes on from a tree counts the comments of
that tree as read before it.

- `Reads.comments_eq`: a derivation keeps all comments in their order.
- `comments_parseText`: reading a file keeps all comments, and the trailer.
-/

namespace Diglot

/-- The comments in several nodes. -/
abbrev Node.commentsOf (ns : List Node) : List Comment :=
  ns.flatMap Node.comments

open Node

/-- Going past a token keeps the comments, and so do `Flag`, `PassesIf` and `Perhaps`. -/
theorem Passes.comments_eq {S S' : Tape} {k : TokenKind} (h : Passes S k S') :
    S.comments = S'.comments := by
  obtain ⟨t, ht⟩ := h
  exact ht.comments_eq

theorem Flag.comments_eq {S S' : Tape} {k : TokenKind} {b : Bool} (h : Flag k S b S') :
    S.comments = S'.comments := by
  cases h with
  | yes h => exact h.comments_eq
  | no h => rfl

theorem PassesIf.comments_eq {S S' : Tape} {k : TokenKind} {b : Bool} (h : PassesIf k b S S') :
    S.comments = S'.comments := by
  cases h with
  | yes h => exact h.comments_eq
  | no => rfl

theorem Perhaps.comments_eq {α : Type} {means : TokenKind → Option α} {S S' : Tape} {a : Option α}
    (h : Perhaps means S a S') : S.comments = S'.comments := by
  cases h with
  | some h => exact h.comments_eq
  | none h => rfl

/-- The comments that wait, `waiting`, come before all others. -/
theorem Tape.waiting_append_comments (S : Tape) : S.waiting ++ S.flush.comments = S.comments := by
  have h := congrArg Tape.comments S.waiting_append_flush
  simpa using h

/-- Comments as a declaration of their own, `Comment.declare`, are the comments of that
declaration. -/
@[simp] theorem Comment.commentsOf_declare (cs : List Comment) :
    commentsOf (Declaration.nodesOf (Comment.declare cs)) = cs := by
  cases cs with
  | nil => rfl
  | cons c cs =>
    simp [Comment.declare, Declaration.nodesOf, Declaration.nodes, Node.comments]

/-- Names hold no comments. -/
theorem commentsOf_symbols (ps : List String) :
    commentsOf (Expr.nodesOf (ps.map .symbol)) = [] := by
  induction ps with
  | nil => rfl
  | cons p ps ih => simpa [Expr.nodesOf, Expr.nodes, Node.comments] using ih

theorem commentsOf_binary {op : BinaryOp} (hop : op ≠ .dot) (l r : Expr) :
    commentsOf (Expr.binary op l r).nodes = commentsOf l.nodes ++ commentsOf r.nodes := by
  simp [Expr.nodes, hop, Node.comments]

/-- The name after a point holds no comments. -/
theorem commentsOf_dot (e : Expr) (n : String) :
    commentsOf (Expr.binary .dot e (.symbol n)).nodes = commentsOf e.nodes := by
  simp [Expr.nodes, Node.comments]

/-- A derivation keeps all comments in their order. Those of `Phrase.earlier` are in the tree
that the phrase goes on from. -/
theorem Reads.comments_eq {d : Dialect} {φ : Phrase} {S S' : Tape} {a : φ.Out}
    (h : Reads d φ S a S') :
    commentsOf φ.earlier ++ S.comments = commentsOf (φ.nodes a) ++ S'.comments := by
  induction h with
  | arrow h ha ho hb ih ihb =>
    simp only [Phrase.earlier, Phrase.nodes, Expr.nodes, List.flatMap_cons, Node.comments,
      commentsOf_symbols, List.flatMap_nil, List.nil_append] at ih ihb ⊢
    rw [ih, ha.comments_eq, ihb]
  | arrowBlock h ha hb ih ihb =>
    simp only [Phrase.earlier, Phrase.nodes, Expr.nodes, List.flatMap_cons, Node.comments,
      commentsOf_symbols, List.flatMap_nil, List.nil_append] at ih ihb ⊢
    rw [ih, ha.comments_eq, ihb]
  | pathMore h hn hk hx ih =>
    simp only [Phrase.earlier, Phrase.nodes, commentsOf_dot] at ih ⊢
    rw [h.comments_eq, hn.comments_eq, ih]
  | memberDot ho h hn hk hx ih =>
    simp only [Phrase.earlier, Phrase.nodes, commentsOf_dot] at ih ⊢
    rw [h.comments_eq, hn.comments_eq, ih]
  | climbMore h hk hb hl hu hr ho hx ihr ihx =>
    simp only [Phrase.earlier, Phrase.nodes, commentsOf_binary (ne_dot_of_infixOp? hk),
      List.flatMap_nil, List.nil_append] at ihr ihx ⊢
    rw [h.comments_eq, ihr, ← List.append_assoc, ihx]
  | assignmentSome hl h ht hop ho hr ihl ihr =>
    simp only [Phrase.earlier, Phrase.nodes, commentsOf_binary (ne_dot_of_assignment hop),
      List.flatMap_nil, List.nil_append] at ihl ihr ⊢
    rw [ihl, h.comments_eq, ihr, List.append_assoc]
  | declarationsEnd h =>
    simp [Phrase.earlier, Phrase.nodes, Tape.waiting_append_comments]
  | @declarationsMore S S₁ S₂ x xs hx hxs ihx ihxs =>
    simp only [Phrase.earlier, Phrase.nodes, Declaration.nodesOf_append, Declaration.nodesOf,
      commentsOf, List.flatMap_append, List.flatMap_nil, List.nil_append] at ihx ihxs ⊢
    rw [← S.waiting_append_comments, ihx, ihxs]
    simp
  | _ =>
    -- the other rules hold no comments besides those of their parts, which they have in order
    simp only [Phrase.earlier, Phrase.nodes, Expr.nodes, Expr.nodesOf, Entry.nodes,
      Entry.nodesOf, Statement.nodes, Declaration.nodes, Node.comments, List.flatMap_cons,
      List.flatMap_nil, List.flatMap_append, List.nil_append, List.append_nil, commentsOf] at *
    try grind only [→ Takes.comments_eq, → Passes.comments_eq, → Flag.comments_eq,
      → PassesIf.comments_eq, → Perhaps.comments_eq, List.append_assoc]

theorem ModuleLine.comments_eq {d : Dialect} {S S' : Tape} {m : Option String}
    (h : ModuleLine d S m S') : S.comments = S'.comments := by
  cases h with
  | none h => rfl
  | some h hn hs =>
    have hend := hs.comments_eq
    simp only [Phrase.earlier, Phrase.nodes, List.flatMap_nil, List.nil_append] at hend
    rw [h.comments_eq, hn.comments_eq, hend]

/-- The comments before the first import go to the program. -/
theorem BeforeImports.comments_eq {S S' : Tape} {cs : List Comment} (h : BeforeImports S cs S') :
    S.comments = cs ++ S'.comments := by
  cases h with
  | taken h => exact S.waiting_append_comments.symm
  | kept h => rfl

/-- The comments of a file, `Program.comments`, are those on its tape. -/
theorem ReadsProgram.comments_eq {d : Dialect} {S : Tape} {trailer : Option String} {p : Program}
    (h : ReadsProgram d S trailer p) : p.comments = S.comments := by
  obtain @⟨S₁, S₂, S₃, S₄, m, cs, is, body, -, hm, hcs, his, hb, rfl⟩ := h
  have himports := his.comments_eq
  have hbody := hb.comments_eq
  simp only [Phrase.earlier, Phrase.nodes, List.flatMap_nil, List.nil_append] at himports hbody
  rw [← S.waiting_append_comments, hm.comments_eq, hcs.comments_eq, himports, hbody]
  simp [Program.comments, Program.nodes, Tape.comments]

/-! ## The trailer -/

section Trailer

open Lexeme

/-- The trailer is found by the first rule alone: `classify` gives its kind only where
`outputComment` finds it. -/
theorem outputComment_of_classify {d : Dialect} {cs : List Char}
    (h : (classify d cs).1 = .outputComment) :
    0 < outputComment cs ∧ (classify d cs).2 = outputComment cs := by
  by_cases hzero : outputComment cs = 0
  · -- no other rule is for this kind
    have hkinds : ∀ k ∈ (rules d).tail.map Rule.kind, k ≠ .outputComment := by
      cases d <;> decide
    have hhead : rules d = ⟨.outputComment, outputComment⟩ :: (rules d).tail := rfl
    rw [classify, hhead, List.findSome?_cons, Rule.find?_eq_none_iff.2 hzero] at h
    cases hfind : (rules d).tail.findSome? fun r => r.find? cs with
    | none =>
      rw [hfind] at h
      exact absurd h (by decide)
    | some kn =>
      obtain ⟨r, hr, hfound⟩ := List.exists_of_findSome?_eq_some hfind
      have hpos : 0 < r.scan cs := by
        refine Nat.pos_of_ne_zero fun hscan => ?_
        rw [Rule.find?_eq_none_iff.2 hscan] at hfound
        simp at hfound
      rw [Rule.find?_of_pos hpos] at hfound
      rw [hfind, ← hfound] at h
      exact absurd h (hkinds _ (List.mem_map_of_mem hr))
  · have hpos := Nat.pos_of_ne_zero hzero
    exact ⟨hpos, by rw [classify_outputComment d hpos]⟩

/-- Nothing but blanks follows what `outputComment` finds. -/
theorem all_blank_drop_outputComment {cs : List Char} (h : 0 < outputComment cs) :
    (cs.drop (outputComment cs)).all Text.isBlank = true := by
  unfold outputComment at h ⊢
  split at h
  · simp only at h ⊢
    split at h
    · next hstart hblank => rw [if_pos hstart, if_pos hblank, hblank]
    · simp at h
  · simp at h

/-- Blanks hold no token of the kind `outputComment`. -/
theorem Lexer.kind_ne_of_blank (l : Lexer) (h : l.rest.all Text.isBlank = true) :
    ∀ t ∈ l.tokens, t.kind ≠ .outputComment := by
  fun_induction Lexer.tokens l with
  | case1 l hnil =>
    have hrest : l.rest = [] := by simpa using hnil
    simp [scan, hrest]
  | case2 l hne ih =>
    have hrest : l.rest ≠ [] := by simpa using hne
    intro t ht
    rcases List.mem_cons.1 ht with rfl | ht
    · intro hk
      rw [Lexer.kind_scan hrest] at hk
      obtain ⟨hpos, -⟩ := outputComment_of_classify hk
      unfold outputComment at hpos
      split at hpos
      · next hstart =>
        -- a trailer begins with slashes, which are no blanks
        unfold startsTrailer at hstart
        obtain ⟨tail, htail⟩ := startsWith_iff.1 (Bool.and_eq_true_iff.1 hstart).1
        rw [htail] at h
        simp [Text.isBlank, Text.blankRanges] at h
      · simp at hpos
    · refine ih ?_ t ht
      rw [Lexer.rest_scan hrest, List.all_eq_true] at *
      exact fun c hc => h c (List.mem_of_mem_drop hc)

/-- A text has at most one token of the kind `outputComment`. -/
theorem Lexer.trailer_unique (l : Lexer) :
    (∀ t ∈ l.tokens, t.kind ≠ .outputComment) ∨
      ∃ t, l.tokens.filter (fun t => t.kind == .outputComment) = [t] := by
  fun_induction Lexer.tokens l with
  | case1 l hnil =>
    have hrest : l.rest = [] := by simpa using hnil
    simp [scan, hrest]
  | case2 l hne ih =>
    have hrest : l.rest ≠ [] := by simpa using hne
    by_cases hk : l.scan.1.kind = .outputComment
    · have hblank : l.scan.2.rest.all Text.isBlank = true := by
        rw [Lexer.kind_scan hrest] at hk
        obtain ⟨hpos, hlen⟩ := outputComment_of_classify hk
        rw [Lexer.rest_scan hrest, hlen]
        exact all_blank_drop_outputComment hpos
      -- nothing but blanks follows the trailer, so there is no second one
      have hnone := l.scan.2.kind_ne_of_blank hblank
      refine .inr ⟨l.scan.1, ?_⟩
      rw [List.filter_cons_of_pos (by simpa using hk), List.filter_eq_nil_iff.2]
      simpa using hnone
    · rw [List.filter_cons_of_neg (by simpa using hk)]
      rcases ih with hnone | hone
      · refine .inl fun t ht => ?_
        rcases List.mem_cons.1 ht with rfl | ht
        · exact hk
        · exact hnone t ht
      · exact .inr hone

end Trailer

/-- Reading a file loses, repeats and reorders no comment, and keeps the trailer. The comments
of the program, those above its module line and imports first and then those met on the way through
its nodes, are the comment tokens of the text. -/
theorem comments_parseText {d : Dialect} {file text : String} {p : Program}
    (h : parseText d file text = .ok (some p)) :
    p.comments = (Lexer.ofText d file text).tokens.filterMap Comment.ofToken? ∧
      ((∀ t ∈ (Lexer.ofText d file text).tokens, t.kind ≠ .outputComment) ∧ p.trailer = "" ∨
        ∃ t, (Lexer.ofText d file text).tokens.filter (fun t => t.kind == .outputComment) = [t] ∧
          p.trailer = t.text) := by
  have hreads := reads_of_parseText h
  refine ⟨?_, ?_⟩
  · rw [hreads.comments_eq]
    exact (Lexer.ofText d file text).comments_tokens
  · have htrailer : p.trailer = (Token.trailer? (Lexer.ofText d file text).tokens).getD "" := by
      rw [Lexer.trailer?_tokens]
      cases hreads
      rfl
    -- the trailer of the program is the first that is found, and there is at most one
    rw [htrailer, Token.trailer?, ← List.head?_filter]
    rcases (Lexer.ofText d file text).trailer_unique with hnone | ⟨t, ht⟩
    · refine .inl ⟨hnone, ?_⟩
      rw [List.filter_eq_nil_iff.2 (by simpa using hnone)]
      rfl
    · refine .inr ⟨t, ht, ?_⟩
      rw [ht]
      rfl

theorem comments_parseText_note :
    [⟨.line, "// c"⟩, ⟨.block, "/* d */"⟩] = (Lexer.ofText .block "a"
      "// c\nif x then y = 1 + /* d */ 2; end").tokens.filterMap Comment.ofToken? :=
  (comments_parseText parseText_notes).1

end Diglot

import Diglot.Proofs.Standalone

/-!
# What printed expressions begin with

At the start of a statement the token that opens a block, or the word of a function, would be read
as the beginning of something else than an expression, and so would the token that opens a block as
the body of an arrow function. Printing puts parentheses around an expression there if the node that
comes first in its text, down its left operands, is an object or a function. The first token of the
text is followed down the same way: whatever the operators on the right do, what they add after the
first operand begins with nothing that prolongs it.

- `BeginsAs`: the kind of the first token of a text that counts for the grammar.
- `Dialect.Neutral`: the kinds of tokens that begin neither a block nor a function.
- `Doc.Begins`: what a document begins with.
- `Node.Lexical`: a node with a name or a literal that is one token.
- `Expr.MayBegin`: the kinds of tokens that an expression may begin with.
- `Expr.begins_doc`: a printed expression begins with such a token.
- `Expr.begins_arrowBody`, `Statement.begins_expr`: where parentheses keep it from being read as
  something else.
-/

namespace Diglot

open Lexeme

/-! ## The first token of a text -/

/-- The first token of a text that counts for the grammar, as `TokenKind.isSignificant` tells,
is of a certain kind. -/
def BeginsAs (d : Dialect) (ok : TokenKind → Prop) (text : String) : Prop :=
  ∀ file, ∃ t, (Lexer.ofText d file text).tokens.find? (·.kind.isSignificant) = some t ∧ ok t.kind

/-- A token that counts for the grammar is the first such token if `classify` finds it first of
all. -/
theorem beginsAs_of_classify {d : Dialect} {ok : TokenKind → Prop} {text : String}
    (htext : text.toList ≠ []) (hk : (classify d text.toList).1.isSignificant = true)
    (hok : ok (classify d text.toList).1) : BeginsAs d ok text := by
  intro file
  have hkind : (Lexer.ofText d file text).scan.1.kind = (classify d text.toList).1 := by
    simp [Lexer.scan, Lexer.ofText, htext]
  refine ⟨(Lexer.ofText d file text).scan.1, ?_, by rwa [hkind]⟩
  rw [Lexer.tokens_of_rest_ne_nil htext]
  exact List.find?_cons_of_pos (by rwa [hkind])

/-- A token that counts for the grammar and begins neither a block nor a function. -/
structure Dialect.Neutral (t : Dialect) (k : TokenKind) : Prop where
  significant : k.isSignificant = true
  notBlock : k ≠ t.blockOpen
  notFunction : k ≠ t.functionWord

theorem Dialect.neutral_iff {t : Dialect} {k : TokenKind} :
    t.Neutral k ↔ k.isSignificant = true ∧ k ≠ t.blockOpen ∧ k ≠ t.functionWord :=
  ⟨fun ⟨hk, hb, hf⟩ => ⟨hk, hb, hf⟩, fun ⟨hk, hb, hf⟩ => ⟨hk, hb, hf⟩⟩

instance (t : Dialect) (k : TokenKind) : Decidable (t.Neutral k) :=
  decidable_of_iff _ Dialect.neutral_iff.symm

/-- What has no spelling of its own, `TokenKind.spelling?`, is neither a sign nor a reserved
word. -/
theorem Dialect.neutral_of_spelling? {t : Dialect} {k : TokenKind} (hk : k.isSignificant = true)
    (h : k.spelling? = none) : t.Neutral k where
  significant := hk
  notBlock := by
    rintro rfl
    cases t <;> cases h
  notFunction := by
    rintro rfl
    cases t <;> cases h

section Signs

variable {t : Dialect} {c : Char}

/-- Whether a character is a sign that begins neither a word nor a number, no blanks and no comment,
and no block. -/
def isPlainSign (c : Char) : Bool :=
  !isWordChar c && !isSpace c && c != '\n' && c != '/' && c != '\x7b'

/-- A rule that finds something at an `isPlainSign` is for tokens that are `Neutral`. -/
theorem neutral_of_pos (hc : isPlainSign c = true) (cs : List Char) :
    ∀ r ∈ rules t, 0 < r.scan (c :: cs) → t.Neutral r.kind := by
  simp only [isPlainSign, Bool.and_eq_true, Bool.not_eq_true', bne_iff_ne, ne_eq] at hc
  obtain ⟨⟨⟨⟨hword, hspace⟩, hfeed⟩, hslash⟩, hbrace⟩ := hc
  have hslashes : startsWith "//" (c :: cs) = false := by
    simp [startsWith, List.isPrefixOf, Ne.symm hslash]
  have hmark : startsWith "/*" (c :: cs) = false := by
    simp [startsWith, List.isPrefixOf, Ne.symm hslash]
  have hnewline : newline (c :: cs) = 0 := by
    unfold newline
    split <;> simp_all [isSpace]
  have hearly : ∀ r ∈ earlyRules, 0 < r.scan (c :: cs) → t.Neutral r.kind := by
    simp only [earlyRules, List.forall_mem_cons, List.not_mem_nil, false_implies, implies_true,
      and_true]
    -- the rules for blanks, for comments and for the brace find nothing
    have hout : outputComment (c :: cs) = 0 := by simp [outputComment, startsTrailer, hslashes]
    have hblank : whitespace (c :: cs) = 0 := by simp [whitespace, run, hspace]
    have hline : lineComment (c :: cs) = 0 := by simp [lineComment, hslashes]
    have hblock : blockComment (c :: cs) = 0 := by simp [blockComment, hmark]
    have hopen : (Rule.punct .lbrace).scan (c :: cs) = 0 := by
      simp [Rule.punct, fixed, startsWith, List.isPrefixOf, Punct.spelling, Ne.symm hbrace]
    simp only [hout, hnewline, hblank, hline, hblock, hopen, Nat.lt_irrefl, false_implies, true_and]
    and_intros <;> exact fun _ => by cases t <;> decide
  have hlate : ∀ r ∈ lateRules, t.Neutral r.kind := by
    cases t <;> decide
  intro r hr hpos
  simp only [rules, List.mem_append, List.mem_map] at hr
  rcases hr with (hr | ⟨k, -, rfl⟩) | hr
  · exact hearly r hr hpos
  · have hzero : word k.spelling (c :: cs) = 0 := word_eq_zero hword (by cases k <;> decide) cs
    exact absurd hpos (by simp [Rule.keyword, hzero])
  · exact hlate r hr

/-- The token that `classify` finds at a plain sign is `Neutral`, `unknown` included. -/
theorem neutral_classify (hc : isPlainSign c = true) (cs : List Char) :
    t.Neutral (classify t (c :: cs)).1 := by
  unfold classify
  cases hfound : (rules t).findSome? fun r => r.find? (c :: cs) with
  | none => cases t <;> decide
  | some found =>
    obtain ⟨r, hr, hfind⟩ := List.exists_of_findSome?_eq_some hfound
    obtain ⟨hpos, rfl⟩ := Rule.find?_eq_some_iff.1 hfind
    exact neutral_of_pos hc cs r hr hpos

end Signs

/-! ## The first token of a document -/

namespace Doc

/-- Whatever a document `Writes`, before text of some form, begins with a token of a certain
kind. -/
def Begins (t : Dialect) (after : List Char → Prop) (ok : TokenKind → Prop) (doc : Doc) : Prop :=
  ∀ indent written T, (∀ c ∈ indent, c = ' ') → doc.Writes indent written T →
    T ≠ [] ∧ ∀ rest, after rest → ok (classify t (T ++ rest)).1

variable {t : Dialect} {a b : Doc} {after mid : List Char → Prop} {ok ok' : TokenKind → Prop}

theorem begins_text {s : String} (hs : s.toList ≠ [])
    (h : ∀ rest, after rest → ok (classify t (s.toList ++ rest)).1) :
    (text s).Begins t after ok := by
  rintro _ _ _ _ rfl
  exact ⟨hs, h⟩

/-- A document that is stopped at once writes nothing, so nothing is asked of it. -/
theorem begins_fault {f : Defect} : (fault f).Begins t after ok :=
  fun _ _ _ _ hT => hT.elim

theorem Begins.imp (h : a.Begins t after ok) (himp : ∀ k, ok k → ok' k) : a.Begins t after ok' :=
  fun indent written T hindent hT =>
    (h indent written T hindent hT).imp_right fun hopen rest hrest => himp _ (hopen rest hrest)

/-- The first of two documents decides, if the second one `Leads` with text of the form that it
asks for. -/
theorem Begins.append (ha : a.Begins t mid ok) (hb : b.Leads after mid) :
    (a ++ b).Begins t after ok := by
  rintro indent written _ hindent ⟨T₁, T₂, hT₁, hT₂, rfl⟩
  obtain ⟨hne, hopen⟩ := ha indent written T₁ hindent hT₁
  have hwritten : (written || !T₁.isEmpty) = true := by simp [hne]
  rw [hwritten] at hT₂
  refine ⟨by simp [hne], fun rest hrest => ?_⟩
  rw [List.append_assoc]
  exact hopen _ (hb indent T₂ rest hindent hT₂ hrest)

/-- Before `Anything`, it does not matter what comes next. -/
theorem Begins.then (ha : a.Begins t Anything ok) : (a ++ b).Begins t after ok :=
  ha.append leads_anything

theorem Begins.laidOut {opening closing : String} {docs : List Doc}
    (h : (text opening).Begins t Anything ok) :
    (Doc.laidOut opening closing docs).Begins t after ok := by
  unfold Doc.laidOut
  split
  · exact h.then.then
  · exact h.then.then.then.then
  · exact h.then.then.then

theorem begins_plainSign {s : String} {c : Char} {cs : List Char} (hs : s.toList = c :: cs)
    (hc : isPlainSign c = true) : (text s).Begins t Anything t.Neutral := by
  refine begins_text (by simp [hs]) fun rest _ => ?_
  rw [hs]
  exact neutral_classify hc _

/-- A reserved word is the first token if a `Boundary` follows it. -/
theorem begins_word {w : Keyword} (hw : w ∈ t.keywords) (hok : ok (.keyword w)) :
    (text w.spelling).Begins t Boundary ok := by
  refine begins_text (by cases w <;> decide) fun rest hrest => ?_
  rwa [classify_keyword hw hrest]

/-- The parenthesis that begins what stands in parentheses. -/
theorem lparen_begins : (text "(").Begins t Anything t.Neutral :=
  begins_plainSign rfl (by decide)

/-- The parentheses of `Expr.fitted` begin with a token that is `Neutral`. -/
theorem Begins.fitted (h : a.Begins t Boundary ok) (hneutral : ∀ k, t.Neutral k → ok k)
    (required : Precedence) (e : Expr) : (e.fitted required a).Begins t Boundary ok := by
  unfold Expr.fitted
  split
  · exact (lparen_begins.imp hneutral).then.then
  · exact h

end Doc

/-! ## Printed expressions -/

/-- A node is spelled as tokens of a dialect: a name that it uses is an `IsWord` that is not
reserved, the name of a member is an `IsWord`, and a literal `LexesAlone` as its kind. -/
def Node.Lexical (d : Dialect) : Node → Prop
  | .expr (.symbol name) => IsWord name ∧ d.keyword? name = none
  | .expr (.binary .dot _ (.symbol name)) => IsWord name
  | .expr (.literal value) => LexesAlone d value.text value.kind
  | _ => True

/-- The kinds of tokens that the text of an expression may begin with: what opens a block, or
begins a function, only if printing takes care of it by `readsAsBlock` or `isAmbiguous`. -/
structure Expr.MayBegin (t : Dialect) (e : Expr) (k : TokenKind) : Prop where
  significant : k.isSignificant = true
  block : k = t.blockOpen → e.readsAsBlock t.surface = true
  function : k = t.functionWord → e.isAmbiguous t.surface = true

namespace Expr

open Doc

variable {t : Dialect} {e e' : Expr} {k : TokenKind}

theorem MayBegin.of_neutral (h : t.Neutral k) : e.MayBegin t k where
  significant := h.significant
  block hk := absurd hk h.notBlock
  function hk := absurd hk h.notFunction

/-- Where nothing is ambiguous, an expression begins with a token that is `Neutral`. -/
theorem MayBegin.neutral (h : e.MayBegin t k) (hclear : e.isAmbiguous t.surface = false) :
    t.Neutral k where
  significant := h.significant
  notBlock hk := by
    have hblock := h.block hk
    rw [readsAsBlock_eq] at hblock
    simp [isAmbiguous_eq, hblock] at hclear
  notFunction hk := by
    have hfunction := h.function hk
    rw [hclear] at hfunction
    cases hfunction

/-- What an expression begins with is what its `leftmost` node begins with. -/
theorem MayBegin.of_leftmost (h : e.MayBegin t k) (heq : e.leftmost = e'.leftmost) :
    e'.MayBegin t k where
  significant := h.significant
  block hk := by
    rw [readsAsBlock_eq, ← heq, ← readsAsBlock_eq]
    exact h.block hk
  function hk := by
    rw [isAmbiguous_eq, ← heq, ← isAmbiguous_eq]
    exact h.function hk

theorem begins_symbol {name : String} (hword : IsWord name) (hfree : t.keyword? name = none) :
    (Doc.text name).Begins t Boundary t.Neutral := by
  refine begins_text (by simpa using hword.ne_empty) fun rest hrest => ?_
  rw [classify_word_append t hword hrest, Dialect.wordKind, hfree]
  split <;> exact Dialect.neutral_of_spelling? rfl rfl

/-- The spelling of a literal that `LexesAlone` is its first token. -/
theorem begins_literal {v : Literal} (h : LexesAlone t v.text v.kind) :
    (Doc.text v.text).Begins t Boundary t.Neutral := by
  have hsignificant : v.kind.isSignificant = true := by cases v <;> rfl
  have hspelling : v.kind.spelling? = none := by cases v <;> rfl
  obtain ⟨start, stop, htokens⟩ := h ""
  obtain ⟨rest, hfound⟩ := Lexer.exists_classify (t := ⟨v.kind, v.text, start⟩)
    (htokens ▸ List.mem_cons_self) (by cases v <;> simp [Literal.kind])
  refine begins_text (ne_nil_of_classify_append hfound) fun rest hrest => ?_
  rw [Literal.classify_append (genuine_of_classify_append hfound) hrest]
  exact Dialect.neutral_of_spelling? hsignificant hspelling

theorem new_begins : (Doc.text "new ").Begins t Anything t.Neutral := by
  refine begins_text (by simp) fun rest _ => ?_
  have hboundary : Boundary (' ' :: rest) := boundary_cons (by decide) (by decide)
  have hfound : classify t ("new ".toList ++ rest) = (.keyword .newKw, 3) :=
    classify_keyword (k := .newKw) (by cases t <;> decide) hboundary
  rw [hfound]
  cases t <;> decide

/-- The word of a function, which `isAmbiguous` tells of. -/
theorem functionWord_begins (name : Option String) (params : List String) (body : Block) :
    (Doc.text t.surface.functionWord).Begins t Boundary
      ((Expr.function name params body).MayBegin t) := by
  cases t with
  | brace =>
    exact begins_word (w := .functionKw) (by decide)
      ⟨rfl, fun hk => absurd hk (by decide), fun _ => rfl⟩
  | block =>
    exact begins_word (w := .fnKw) (by decide) ⟨rfl, fun hk => absurd hk (by decide), fun _ => rfl⟩

/-- The brace of an object, which opens a block in the brace dialect and nothing in the other. -/
theorem lbrace_begins (es : List Entry) :
    (Doc.text "\x7b").Begins t Anything ((Expr.object es).MayBegin t) := by
  refine begins_text (by simp) fun rest _ => ?_
  have hfound : classify t ("\x7b".toList ++ rest) = (.punct .lbrace, 1) :=
    classify_sign (p := .lbrace) rfl rest
  rw [hfound]
  cases t with
  | brace => exact ⟨rfl, fun _ => rfl, fun hk => absurd hk (by decide)⟩
  | block => exact .of_neutral (by decide)

/-- An operator before its operand begins with a token that is `Neutral`, whatever token it
makes with what follows. -/
theorem begins_unary (op : UnaryOp) (operand : Expr) (s : Surface) :
    ((Expr.unary op operand).doc s).Begins t Boundary t.Neutral := by
  have hspace : (Doc.text " ").Leads Anything Boundary := text_space_leads
  cases op with
  | new =>
    rw [Expr.doc]
    split
    · exact new_begins.then
    · exact begins_fault
  | typeof =>
    have hword : (Doc.text "typeof").Begins t Boundary t.Neutral :=
      begins_word (w := .typeofKw) (by cases t <;> decide) (by cases t <;> decide)
    exact (hword.append hspace).then
  | await =>
    have hword : (Doc.text "await").Begins t Boundary t.Neutral :=
      begins_word (w := .awaitKw) (by cases t <;> decide) (by cases t <;> decide)
    exact (hword.append hspace).then
  | _ => exact (begins_plainSign rfl (by decide)).then.then

theorem leads_of_isList (h : e.isList = true) {ok : List Char → Prop} :
    (e.doc t.surface).Leads ok Boundary := by
  cases e with
  | list => exact paren_leads
  | _ => cases h

/-- The first operand of an expression begins as the expression does, `fitted` with parentheses
or not. -/
theorem begins_operand (h : (e.doc t.surface).Begins t Boundary (e.MayBegin t)) (e' : Expr)
    (heq : e.leftmost = e'.leftmost) (required : Precedence) :
    (e.fitted required (e.doc t.surface)).Begins t Boundary (e'.MayBegin t) :=
  (h.imp fun _ hk => hk.of_leftmost heq).fitted (fun _ => .of_neutral) required e

/-- A printed expression begins with a token that it `MayBegin` with. -/
theorem begins_doc (e : Expr) (h : ∀ n ∈ e.nodes, n.Lexical t) :
    (e.doc t.surface).Begins t Boundary (e.MayBegin t) := by
  -- by the recursion that looks for the first node
  induction e using leftmost.induct with
  | case1 left right =>
    have hnew := (new_begins (t := t)).imp fun _ =>
      MayBegin.of_neutral (e := .binary .new left right)
    rw [Expr.doc]
    split
    · exact begins_fault
    · split
      · exact begins_fault
      · exact hnew.then.then
  | case2 op left right hnew ih =>
    have hleftmost : left.leftmost = (Expr.binary op left right).leftmost := by
      cases op <;> first | exact absurd rfl hnew | rfl
    have hleft := begins_operand (ih fun n hn => h n (by simp [Expr.nodes, hn])) _ hleftmost
    cases op with
    | new => exact absurd rfl hnew
    | dot =>
      cases right with
      | symbol name =>
        have hname : IsWord name := h _ (.head _)
        exact ((hleft _).append dot_leads).append (leads_noDigit hname)
      | _ => exact begins_fault
    | _ => exact ((hleft _).append (BinaryOp.leads_infixText _)).then
  | case3 test yes no ih =>
    have htest := begins_operand (ih fun n hn => h n (by simp [Expr.nodes, hn]))
      (.ternary test yes no) rfl
    have hquestion : (Doc.text " ? ").Leads Anything Boundary := leads_space rfl
    exact ((htest _).append hquestion).then.then.then
  | case4 callee arguments ih =>
    have hcallee := begins_operand (ih fun n hn => h n (by simp [Expr.nodes, hn]))
      (.call callee arguments) rfl
    rw [Expr.doc]
    split
    next hlist => exact (hcallee _).append (leads_of_isList hlist)
    next => exact begins_fault
  | case5 target position ih =>
    have htarget := begins_operand (ih fun n hn => h n (by simp [Expr.nodes, hn]))
      (.index target position) rfl
    exact ((htarget _).append lbrack_leads).then.then
  | case6 op operand ih =>
    have hoperand := begins_operand (ih fun n hn => h n (by simp [Expr.nodes, hn]))
      (.step op operand) rfl
    exact (hoperand _).append op.leads_spelling
  | case7 e hnew hbinary hternary hcall hindex hstep =>
    have hneutral (k : TokenKind) (hk : t.Neutral k) : e.MayBegin t k := .of_neutral hk
    have hself := h (.expr e) (by cases e <;> exact .head _)
    cases e with
    | symbol name => exact (begins_symbol hself.1 hself.2).imp hneutral
    | literal value => exact (begins_literal hself).imp hneutral
    | grouping inner => exact (lparen_begins.imp hneutral).then.then
    | unary op operand => exact (begins_unary op operand _).imp hneutral
    | object es => exact (lbrace_begins es).laidOut
    | array es => exact ((begins_plainSign rfl (by decide)).imp hneutral).laidOut
    | list es trailingComma => exact (lparen_begins.imp hneutral).then.then.then
    | function name params body =>
      have hword := functionWord_begins (t := t) name params body
      cases name with
      | none => exact ((hword.append leads_empty).append signature_leads).then.then
      | some name => exact (hword.append space_leads).then.then.then
    | arrow params body => exact (lparen_begins.imp hneutral).then.then.then
    | arrowBlock params body => exact (lparen_begins.imp hneutral).then.then.then
    | binary op left right => exact absurd rfl (hbinary op left right)
    | ternary test yes no => exact absurd rfl (hternary test yes no)
    | call callee arguments => exact absurd rfl (hcall callee arguments)
    | index target position => exact absurd rfl (hindex target position)
    | step op operand => exact absurd rfl (hstep op operand)

/-- The document of the body of an arrow function, after the arrow. Parentheses keep an object
from being read as a block. -/
def arrowBody (s : Surface) (body : Expr) : Doc :=
  if body.readsAsBlock s then "(" ++ body.fitted .comma (body.doc s) ++ ")"
  else body.fitted .assignment (body.doc s)

theorem doc_arrow (s : Surface) (params : List String) (body : Expr) :
    (Expr.arrow params body).doc s = Print.arrowHead params ++ body.arrowBody s := by
  rw [Expr.doc, arrowBody]

/-- The body of an arrow function that is printed as an expression does not begin with
`blockOpen`. -/
theorem begins_arrowBody (body : Expr) (h : ∀ n ∈ body.nodes, n.Lexical t) :
    (body.arrowBody t.surface).Begins t Boundary
      fun k => k.isSignificant = true ∧ k ≠ t.blockOpen := by
  have hneutral (k : TokenKind) (hk : t.Neutral k) : k.isSignificant = true ∧ k ≠ t.blockOpen :=
    ⟨hk.significant, hk.notBlock⟩
  unfold arrowBody
  split
  next => exact (lparen_begins.imp hneutral).then.then
  next hclear =>
    refine ((body.begins_doc h).imp fun k hk => ?_).fitted hneutral _ _
    exact ⟨hk.significant, fun heq => hclear (hk.block heq)⟩

end Expr

/-- An expression statement begins with a token that is `Neutral`, that is neither with
`blockOpen` nor with the word of a function. -/
theorem Statement.begins_expr {t : Dialect} (e : Expr) (h : ∀ n ∈ e.nodes, n.Lexical t)
    (further : Bool) :
    (Statement.doc t.surface further (.expr e)).Begins t Anything t.Neutral := by
  rw [Statement.doc]
  split
  next => exact Doc.lparen_begins.then.then.then
  next hclear =>
    have hbegins := (e.begins_doc h).imp fun k hk => hk.neutral (Bool.eq_false_iff.2 hclear)
    exact (hbegins.fitted (fun _ hk => hk) _ _).append semicolon_leads

end Diglot

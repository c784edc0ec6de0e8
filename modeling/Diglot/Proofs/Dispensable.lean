import Diglot.Proofs.Statements

/-!
# Semicolons that may go

In the block dialect a statement needs no semicolon before a word that closes a construct or before
the end of the text. Whatever may stand before a semicolon looks at the next token only to see that
it does not go on, and the closing words go on nothing that a semicolon does not. So a derivation is
one of the same tree when some of these semicolons are left out of the tape, be they one or all of
them, at whatever depth.

- `Tape.slim`: a tape without some of its semicolons.
- `Tape.kind_slim`: where the first token of a tape goes, a closing one takes its place.
- `Reads.slim`: derivations without these semicolons.
- `ReadsProgram.slim`: derivations of whole files without them.
-/

namespace Diglot

open Rules

/-! ## Tapes without some semicolons -/

namespace Tape

/-- A tape without some of the semicolons that a token which `closesConstruct` follows. Which of
them go is told by the number of tokens after them. -/
def slim (chosen : Nat → Bool) : Tape → Tape
  | [] => []
  | .comment c :: S => .comment c :: slim chosen S
  | .token k t :: S =>
    if k = .punct .semicolon ∧ closesConstruct (kind S) = true ∧ chosen (tokens S) = true then
      slim chosen S
    else .token k t :: slim chosen S

variable {chosen : Nat → Bool} {S : Tape}

/-- Only semicolons go. -/
theorem slim_token_of_ne {k : TokenKind} (hk : k ≠ .punct .semicolon) (t : String) (S : Tape) :
    slim chosen (.token k t :: S) = .token k t :: slim chosen S :=
  if_neg fun h => hk h.1

theorem ne_semicolon_of_closesConstruct {k : TokenKind} (h : closesConstruct k = true) :
    k ≠ .punct .semicolon := by
  rintro rfl
  cases h

/-- The first token stays, if it is not a semicolon. -/
theorem kind_slim_of_ne (h : S.kind ≠ .punct .semicolon) : (S.slim chosen).kind = S.kind := by
  induction S with
  | nil => rfl
  | cons p S ih =>
    cases p with
    | comment c => exact ih h
    | token k t =>
      have hk : k ≠ .punct .semicolon := h
      rw [slim_token_of_ne hk, kind, kind]

/-- The first token stays, or it is a semicolon and a token that `closesConstruct` takes its
place. -/
theorem kind_slim (chosen : Nat → Bool) (S : Tape) :
    (S.slim chosen).kind = S.kind ∨
      S.kind = .punct .semicolon ∧ closesConstruct (S.slim chosen).kind = true := by
  induction S with
  | nil => exact .inl rfl
  | cons p S ih =>
    cases p with
    | comment c => exact ih
    | token k t =>
      rw [slim]
      split
      · next h =>
        refine .inr ⟨h.1, ?_⟩
        rw [kind_slim_of_ne (ne_semicolon_of_closesConstruct h.2.1)]
        exact h.2.1
      · exact .inl rfl

/-- A token that is not there and closes nothing does not come to stand in front. -/
theorem kind_slim_ne {k : TokenKind} (h : S.kind ≠ k)
    (hk : closesConstruct k = false := by rfl) :
    (S.slim chosen).kind ≠ k := by
  rcases kind_slim chosen S with hsame | ⟨-, hcloses⟩
  · rwa [hsame]
  · rintro rfl
    rw [hk] at hcloses
    cases hcloses

/-- The tokens that `closesConstruct`, in full. -/
theorem mem_of_closesConstruct {k : TokenKind} (h : closesConstruct k = true) :
    k ∈ [TokenKind.keyword .endKw, .keyword .elseKw, .keyword .elsifKw, .eof] := by
  unfold closesConstruct at h
  split at h <;> first | decide | cases h

/-- What is said of the first token, and of all that `closesConstruct`, is said of the first
token of `slim`. -/
theorem apply_kind_slim {α : Type} {f : TokenKind → α} {a : α} (h : f S.kind = a)
    (hf : ∀ k ∈ [TokenKind.keyword .endKw, .keyword .elseKw, .keyword .elsifKw, .eof], f k = a) :
    f (S.slim chosen).kind = a := by
  rcases kind_slim chosen S with hsame | ⟨-, hcloses⟩
  · rwa [hsame]
  · exact hf _ (mem_of_closesConstruct hcloses)

theorem text_slim_of_ne (h : S.kind ≠ .punct .semicolon) : (S.slim chosen).text = S.text := by
  induction S with
  | nil => rfl
  | cons p S ih =>
    cases p with
    | comment c => exact ih h
    | token k t =>
      have hk : k ≠ .punct .semicolon := h
      rw [slim_token_of_ne hk, text, text]

/-- A plain assignment sign does not come to stand in front. -/
theorem not_assigns_slim (h : ¬(S.kind = .assign ∧ S.text = "=")) :
    ¬((S.slim chosen).kind = .assign ∧ (S.slim chosen).text = "=") := by
  rintro ⟨hkind, htext⟩
  by_cases hassign : S.kind = .assign
  · rw [text_slim_of_ne (by rw [hassign]; decide)] at htext
    exact h ⟨hassign, htext⟩
  · exact kind_slim_ne hassign rfl hkind

/-- The comments that wait stay, if the token they wait for does. -/
theorem waiting_slim (h : S.kind ≠ .punct .semicolon) : (S.slim chosen).waiting = S.waiting := by
  induction S with
  | nil => rfl
  | cons p S ih =>
    cases p with
    | comment c => exact congrArg (c :: ·) (ih h)
    | token k t =>
      have hk : k ≠ .punct .semicolon := h
      rw [slim_token_of_ne hk]
      rfl

/-- So `slim` and `flush` may be exchanged. -/
theorem flush_slim (h : S.kind ≠ .punct .semicolon) :
    (S.slim chosen).flush = S.flush.slim chosen := by
  induction S with
  | nil => rfl
  | cons p S ih =>
    cases p with
    | comment c => exact ih h
    | token k t =>
      have hk : k ≠ .punct .semicolon := h
      have hflush (T : Tape) : flush (.token k t :: T) = .token k t :: T := rfl
      rw [slim_token_of_ne hk, hflush, hflush, slim_token_of_ne hk]

end Tape

section Slim

open Tape

variable {chosen : Nat → Bool} {S S' : Tape} {k : TokenKind}

/-- A token that is no semicolon is taken from `slim` too. -/
theorem Takes.slim {t : String} (h : Takes S k t S')
    (hk : k ≠ .punct .semicolon := by decide) :
    Takes (S.slim chosen) k t (S'.slim chosen) := by
  induction h with
  | token k t S =>
    rw [slim_token_of_ne hk]
    exact .token k t _
  | comment c _ ih => exact .comment c (ih hk)

theorem Passes.slim (h : Passes S k S') (hk : k ≠ .punct .semicolon := by decide) :
    Passes (S.slim chosen) k (S'.slim chosen) := by
  obtain ⟨t, ht⟩ := h
  exact ⟨t, ht.slim hk⟩

/-- A semicolon in front stays, or it goes and a token that `closesConstruct` is in front. -/
theorem Passes.slim_semicolon (chosen : Nat → Bool) (h : Passes S (.punct .semicolon) S') :
    Passes (S.slim chosen) (.punct .semicolon) (S'.slim chosen) ∨
      S.slim chosen = S'.slim chosen ∧ closesConstruct (S'.slim chosen).kind = true := by
  obtain ⟨t, ht⟩ := h
  generalize hk : TokenKind.punct .semicolon = k at ht ⊢
  induction ht with
  | token k t S =>
    rw [Tape.slim]
    split
    · next hgoes =>
      -- the semicolon goes, and what it comes before is still there
      refine .inr ⟨rfl, ?_⟩
      rw [kind_slim_of_ne (ne_semicolon_of_closesConstruct hgoes.2.1)]
      exact hgoes.2.1
    · exact .inl ⟨t, .token k t _⟩
  | comment c _ ih =>
    rcases ih hk with ⟨t, ht⟩ | ⟨heq, hcloses⟩
    · exact .inl ⟨t, .comment c ht⟩
    · exact .inr ⟨by rw [Tape.slim, Tape.slim, heq], hcloses⟩

theorem Flag.slim {b : Bool} (h : Flag k S b S') (hk : k ≠ .punct .semicolon := by decide)
    (hopen : closesConstruct k = false := by rfl) : Flag k (S.slim chosen) b (S'.slim chosen) := by
  cases h with
  | yes h => exact .yes (h.slim hk)
  | no h => exact .no (kind_slim_ne h hopen)

theorem PassesIf.slim {b : Bool} (h : PassesIf k b S S')
    (hk : k ≠ .punct .semicolon := by decide) :
    PassesIf k b (S.slim chosen) (S'.slim chosen) := by
  cases h with
  | yes h => exact .yes (h.slim hk)
  | no => exact .no

/-- A word that declares is no semicolon. -/
theorem ne_semicolon_of_varKeyword? {w : VarKeyword} (h : varKeyword? k = some w) :
    k ≠ .punct .semicolon := by
  rintro rfl
  cases h

theorem Perhaps.slim {w : Option VarKeyword} (h : Perhaps varKeyword? S w S') :
    Perhaps varKeyword? (S.slim chosen) w (S'.slim chosen) := by
  cases h with
  | some h ha => exact .some (h.slim (ne_semicolon_of_varKeyword? ha)) ha
  | none h => exact .none (apply_kind_slim h (by decide))

/-! ## Derivations -/

/-- Where a phrase may end for its derivation not to depend on semicolons. `.elements` that a
semicolon would close, and `.declarations` before a semicolon, are found nowhere in a file. -/
def Phrase.Slims : Phrase → Tape → Prop
  | .elements close _, _ => close ≠ .punct .semicolon
  | .declarations, S => S.kind ≠ .punct .semicolon
  | _, _ => True

theorem Passes.slims_declarations (h : Passes S k S') (hk : k ≠ .punct .semicolon := by decide) :
    Phrase.declarations.Slims S := by
  show S.kind ≠ _
  rwa [h.kind_eq]

/-- An expression does not begin with a semicolon. -/
theorem Reads.kind_ne_semicolon {φ : Phrase} {a : φ.Out} (h : Reads .block φ S a S')
    (hφ : φ.isExpression = true) : S.kind ≠ .punct .semicolon := by
  intro hk
  have hstarts := h.startsExpression hφ
  rw [hk] at hstarts
  cases hstarts

theorem Reads.kind_entry_ne_semicolon {e : Entry} (h : Reads .block .entry S e S') :
    S.kind ≠ .punct .semicolon := by
  cases h with
  | entryShort h hk _ | entryPair h hk _ _ =>
    rw [h.kind_eq]
    rintro rfl
    cases hk

/-- Nor does a declaration. -/
theorem Reads.kind_declaration_ne_semicolon {x : Declaration}
    (h : Reads .block .declaration S x S') : S.kind ≠ .punct .semicolon := by
  intro hk
  have hstarts := h.startsDeclaration
  rw [hk] at hstarts
  cases hstarts

/-- **A derivation without some semicolons.** What is read from `slim` and what is left stay the
same, but for the semicolons that go. -/
theorem Reads.slim (chosen : Nat → Bool) {φ : Phrase} {a : φ.Out} (h : Reads .block φ S a S')
    (hφ : φ.Slims S') : Reads .block φ (S.slim chosen) a (S'.slim chosen) := by
  induction h with
  -- names
  | namesNone h => exact .namesNone (kind_slim_ne h)
  | namesLast h hc => exact .namesLast h.slim (kind_slim_ne hc)
  | namesMore h hc _ ih => exact .namesMore h.slim hc.slim (ih trivial)
  -- blocks and parentheses
  | block h _ hc ih => exact .block h.slim (ih hc.slims_declarations) hc.slim
  | signature h _ hc ih => exact .signature h.slim (ih trivial) hc.slim
  | arguments h _ hc ih =>
    have hclose : TokenKind.punct .rparen ≠ .punct .semicolon := by decide
    exact .arguments h.slim (ih hclose) hc.slim
  -- names and literals
  | symbol h => exact .symbol h.slim
  | boolean h => exact .boolean h.slim
  | fixnum h hr => exact .fixnum h.slim hr
  | flonum h => exact .flonum h.slim
  | string h => exact .string h.slim
  | regexp h => exact .regexp h.slim
  -- what stands between brackets
  | object h _ hc ih => exact .object h.slim (ih trivial) hc.slim
  | array h _ hc ih =>
    have hclose : TokenKind.punct .rbrack ≠ .punct .semicolon := by decide
    exact .array h.slim (ih hclose) hc.slim
  | grouping _ ha ih => exact .grouping (ih trivial) (kind_slim_ne ha)
  | list _ ha hne htwo ih => exact .list (ih trivial) (kind_slim_ne ha) hne htwo
  -- functions
  | functionNamed h hn _ _ ihp ihb =>
    exact .functionNamed h.slim hn.slim (ihp trivial) (ihb trivial)
  | functionBare h hn _ _ ihp ihb =>
    exact .functionBare h.slim (kind_slim_ne hn) (ihp trivial) (ihb trivial)
  | arrow _ ha ho _ ih ihb => exact .arrow (ih trivial) ha.slim (kind_slim_ne ho) (ihb trivial)
  | arrowBlock _ ha _ ih ihb => exact .arrowBlock (ih trivial) ha.slim (ihb trivial)
  -- values and what follows them
  | pathEnd h => exact .pathEnd (kind_slim_ne h)
  | pathMore h hn hk _ ih =>
    exact .pathMore h.slim (hn.slim (by rintro rfl; cases hk)) hk (ih trivial)
  | memberEnd h => exact .memberEnd (apply_kind_slim h (by decide))
  | memberCall ho _ _ ih ihx => exact .memberCall ho (ih trivial) (ihx trivial)
  | memberIndex ho h _ hc _ ihp ihx =>
    exact .memberIndex ho h.slim (ihp trivial) hc.slim (ihx trivial)
  | memberDot ho h hn hk _ ih =>
    exact .memberDot ho h.slim (hn.slim (by rintro rfl; cases hk)) hk (ih trivial)
  | newBare h hn _ hp ih => exact .newBare h.slim hn.slim (ih trivial) (kind_slim_ne hp)
  | newCall h hn _ _ _ iht iha ihx =>
    exact .newCall h.slim hn.slim (iht trivial) (iha trivial) (ihx trivial)
  | member h _ _ ihe ihx => exact .member (kind_slim_ne h) (ihe trivial) (ihx trivial)
  -- operators
  | stepNone _ h ih => exact .stepNone (ih trivial) (apply_kind_slim h (by decide))
  | stepSome _ h hk ho ih => exact .stepSome (ih trivial) (h.slim (by rintro rfl; cases hk)) hk ho
  | unaryNone h _ ih => exact .unaryNone (apply_kind_slim h (by decide)) (ih trivial)
  | unarySome h hk _ ho ih => exact .unarySome (h.slim (by rintro rfl; cases hk)) hk (ih trivial) ho
  | climbEnd h =>
    refine .climbEnd fun op hop => ?_
    rcases kind_slim chosen _ with hsame | ⟨-, hcloses⟩
    · exact h op (hsame ▸ hop)
    · have hnone : ∀ k ∈ [TokenKind.keyword .endKw, .keyword .elseKw, .keyword .elsifKw, .eof],
          infixOp? k = none := by decide
      rw [hnone _ (mem_of_closesConstruct hcloses)] at hop
      cases hop
  | climbMore h hk hb hl hu _ ho _ ihr ihx =>
    exact .climbMore (h.slim (by rintro rfl; cases hk)) hk hb hl hu (ihr trivial) ho (ihx trivial)
  | climb _ _ ihe ihx => exact .climb (ihe trivial) (ihx trivial)
  | assignmentNone _ ha hq ih =>
    exact .assignmentNone (ih trivial) (kind_slim_ne ha) (kind_slim_ne hq)
  | assignmentSome _ h ht hop ho _ ihl ihr =>
    exact .assignmentSome (ihl trivial) h.slim ht hop ho (ihr trivial)
  | ternary _ h ho _ hc _ iht ihy ihn =>
    exact .ternary (iht trivial) h.slim ho (ihy trivial) hc.slim (ihn trivial)
  | sequenceEnd h => exact .sequenceEnd (kind_slim_ne h)
  | sequenceMore h _ _ ihr ihx => exact .sequenceMore h.slim (ihr trivial) (ihx trivial)
  | expr _ _ ihe ihx => exact .expr (ihe trivial) (ihx trivial)
  -- elements and entries
  | @elementsNone S _ _ h =>
    have hne : S.kind ≠ .punct .semicolon := by
      rcases h with h | h
      · exact h.trans_ne hφ
      · exact h.trans_ne (by decide)
    exact .elementsNone (by rwa [kind_slim_of_ne hne])
  | elementsLast h he hc ih =>
    have hne := he.kind_ne_semicolon rfl
    exact .elementsLast (by rwa [kind_slim_of_ne hne]) (ih trivial) (kind_slim_ne hc)
  | elementsMore h he hc _ ihe ih =>
    have hne := he.kind_ne_semicolon rfl
    exact .elementsMore (by rwa [kind_slim_of_ne hne]) (ihe trivial) hc.slim (ih hφ)
  | entryShort h hk hc => exact .entryShort (h.slim (by rintro rfl; cases hk)) hk (kind_slim_ne hc)
  | entryPair h hk hc _ ih =>
    exact .entryPair (h.slim (by rintro rfl; cases hk)) hk hc.slim (ih trivial)
  | @entriesNone S h =>
    have hne : S.kind ≠ .punct .semicolon := by
      rcases h with h | h <;> exact h.trans_ne (by decide)
    exact .entriesNone (by rwa [kind_slim_of_ne hne])
  | entriesLast h he hc ih =>
    have hne := he.kind_entry_ne_semicolon
    exact .entriesLast (by rwa [kind_slim_of_ne hne]) (ih trivial) (kind_slim_ne hc)
  | entriesMore h he hc _ ihe ih =>
    have hne := he.kind_entry_ne_semicolon
    exact .entriesMore (by rwa [kind_slim_of_ne hne]) (ihe trivial) hc.slim (ih trivial)
  -- conditionals and loops
  | endSemicolon h =>
    rcases h.slim_semicolon chosen with hstays | ⟨hgoes, hcloses⟩
    · exact .endSemicolon hstays
    · rw [hgoes]
      exact .endClosed rfl hcloses
  | endClosed hd h =>
    exact .endClosed hd (by rwa [kind_slim_of_ne (ne_semicolon_of_closesConstruct h)])
  | braceIf hd | braceIfElse hd | braceIfElseIf hd | braceWhile hd | braceFor hd => cases hd
  | blockIf hd _ h _ he iht ihb =>
    exact .blockIf hd (iht trivial) h.slim (ihb he.slims_declarations) he.slim
  | blockIfElse hd _ h _ he _ hc iht ihb iho =>
    exact .blockIfElse hd (iht trivial) h.slim (ihb he.slims_declarations) he.slim
      (iho hc.slims_declarations) hc.slim
  | blockIfElsif hd _ h _ he _ iht ihb iho =>
    exact .blockIfElsif hd (iht trivial) h.slim (ihb he.slims_declarations) he.slim (iho trivial)
  | loopHeader hk ho _ hne hc h _ ihns ihe =>
    exact .loopHeader hk.slim ho.slim (ihns trivial) hne hc.slim h.slim (ihe trivial)
  -- statements
  | ifStatement h _ ih => exact .ifStatement h.slim (ih trivial)
  | blockWhile hd h _ _ iht ihb => exact .blockWhile hd h.slim (iht trivial) (ihb trivial)
  | blockFor hd h _ _ ihh ihb => exact .blockFor hd h.slim (ihh trivial) (ihb trivial)
  | throw h _ _ ihe ihs => exact .throw h.slim (ihe trivial) (ihs trivial)
  | retNone h hk _ ih => exact .retNone h.slim (apply_kind_slim hk (by decide)) (ih trivial)
  | retSome h hk he _ ihe ihs =>
    have hne := he.kind_ne_semicolon rfl
    exact .retSome h.slim (by rwa [kind_slim_of_ne hne]) (ihe trivial) (ihs trivial)
  | blockStatement _ ih => exact .blockStatement (ih trivial)
  | exprStatement ho hk he _ ihe ihs =>
    have hne := he.kind_ne_semicolon rfl
    exact .exprStatement (kind_slim_ne ho) (by rwa [kind_slim_of_ne hne]) (ihe trivial)
      (ihs trivial)
  -- declarations
  | function he ha h hn _ _ ihp ihb =>
    exact .function he.slim ha.slim h.slim hn.slim (ihp trivial) (ihb trivial)
  | var he h hk hn ha _ ih =>
    exact .var he.slim (h.slim (ne_semicolon_of_varKeyword? hk)) hk hn.slim
      (not_assigns_slim ha) (ih trivial)
  | varValue he h hk hn ha _ _ ihv ihs =>
    exact .varValue he.slim (h.slim (ne_semicolon_of_varKeyword? hk)) hk hn.slim ha.slim
      (ihv trivial) (ihs trivial)
  | vars he h hk ho _ hne hc ha _ _ ihns ihv ihs =>
    exact .vars he.slim (h.slim (ne_semicolon_of_varKeyword? hk)) hk ho.slim (ihns trivial) hne
      hc.slim ha.slim (ihv trivial) (ihs trivial)
  | statement he ha hf hk _ ih =>
    exact .statement (kind_slim_ne he) (kind_slim_ne ha) (kind_slim_ne hf)
      (apply_kind_slim hk (by decide)) (ih trivial)
  | @declarationsEnd S h =>
    have hne : S.kind ≠ .punct .semicolon := S.kind_flush ▸ hφ
    rw [← waiting_slim hne, ← flush_slim hne]
    exact .declarationsEnd (apply_kind_slim h (by decide))
  | @declarationsMore S _ _ _ _ hx _ ihx ihxs =>
    have hne : S.kind ≠ .punct .semicolon := S.kind_flush ▸ hx.kind_declaration_ne_semicolon
    rw [← waiting_slim hne]
    exact .declarationsMore (flush_slim hne ▸ ihx trivial) (ihxs hφ)
  -- imports
  | importWhole h ha hn hf hp => exact .importWhole h.slim ha.slim hn.slim hf.slim hp.slim
  | importNames h _ hc hf hp ih => exact .importNames h.slim (ih trivial) hc.slim hf.slim hp.slim
  | importsNone h => exact .importsNone (kind_slim_ne h)
  | importsMore h _ _ _ ihi ihs ih =>
    exact .importsMore h.slim (ihi trivial) (ihs trivial) (ih trivial)

/-! ## Files -/

/-- The semicolon of a module line may go too. -/
theorem ModuleLine.slim (chosen : Nat → Bool) {m : Option String} (h : ModuleLine .block S m S') :
    ModuleLine .block (S.slim chosen) m (S'.slim chosen) := by
  cases h with
  | none h => exact .none (kind_slim_ne h)
  | some h hn hs => exact .some h.slim hn.slim (hs.slim chosen trivial)

theorem BeforeImports.slim (chosen : Nat → Bool) {cs : List Comment} (h : BeforeImports S cs S') :
    BeforeImports (S.slim chosen) cs (S'.slim chosen) := by
  cases h with
  | taken h =>
    have hne : S.kind ≠ .punct .semicolon := h.trans_ne (by decide)
    rw [← waiting_slim hne, ← flush_slim hne]
    exact .taken (kind_slim_of_ne hne ▸ h)
  | kept h => exact .kept (kind_slim_ne h)

/-- A file does not begin with a semicolon. -/
theorem ReadsProgram.kind_ne_semicolon {trailer : Option String} {p : Program}
    (h : ReadsProgram .block S trailer p) : S.kind ≠ .punct .semicolon := by
  intro hk
  rw [← S.kind_flush] at hk
  obtain ⟨-, hm, hcs, his, hb, rfl⟩ := h
  cases hm with
  | some h _ _ => cases h.kind_eq.symm.trans hk
  | none _ =>
    cases hcs with
    | taken h => cases h.symm.trans hk
    | kept _ =>
      cases his with
      | importsMore h _ _ _ => cases h.kind_eq.symm.trans hk
      | importsNone _ => exact hb.kind_of_declarations rfl (by decide) hk

/-- **A file without some semicolons**, by `Tape.slim`, holds the same program. -/
theorem ReadsProgram.slim (chosen : Nat → Bool) {trailer : Option String} {p : Program}
    (h : ReadsProgram .block S trailer p) : ReadsProgram .block (S.slim chosen) trailer p := by
  have hne := h.kind_ne_semicolon
  obtain ⟨hblank, hm, hcs, his, hb, rfl⟩ := h
  have hwaiting : (S.slim chosen).waiting = S.waiting := waiting_slim hne
  have hend : TokenKind.eof ≠ .punct .semicolon := by decide
  rw [← hwaiting]
  refine .mk ?_ (flush_slim hne ▸ hm.slim chosen) (hcs.slim chosen) (his.slim chosen trivial)
    (hb.slim chosen hend) rfl
  rwa [Blank, kind_slim_of_ne hne, waiting_slim hne]

end Slim

end Diglot

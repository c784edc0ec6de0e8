import Mathlib.Data.List.Chain
import Diglot.Proofs.Parsed

/-!
# What may come next

A coarse reading of a tape, which looks at the kinds of tokens alone and keeps a stack of what is
still awaited. It accepts every tape that the grammar derives, and more. What it is good for is that
the next token alone decides what it does, so two tapes that it accepts can only part where both of
their tokens are welcome: an assignment and a regular expression never are, and neither are two
semicolons one after the other.

- `Awaited`: what may be awaited; `Awaited.take`, `Awaited.skips`: what a token does to it.
- `Awaited.advance`, `Awaited.run`: one token, and a whole tape.
- `Reads.moves`: a derivation moves the coarse reading along.
- `ReadsProgram.accepts`: the tape of a whole file is accepted.
- `not_accepts_regexp`: where an accepted tape has an assignment, no accepted tape has a regular
  expression after the same pieces.
- `not_accepts_semicolons`: an accepted tape has no two semicolons one after the other.
-/

namespace Diglot

open Rules

/-- What a reading may still wait for. -/
inductive Awaited where
  /-- A token other than a semicolon. -/
  | token (k : TokenKind)
  | operand
  /-- What goes on from an operand. -/
  | more
  /-- Further operands after commas. -/
  | commaMore
  | member
  | arrowBody
  | elements
  | elementsMore
  | entries
  | entryValue
  | entriesMore
  | names
  | namesMore
  /-- The name of a function, if it has one. -/
  | functionName
  /-- The end of a statement. -/
  | stop
  /-- The operands of a `return`, if there are any. -/
  | returned
  | declarations
  | varTarget
  | varValue
  /-- The word before the variables of a loop, if there is one. -/
  | loopWord
  | loopNames
  /-- What follows a branch between braces. -/
  | otherwise
  | otherwiseBody
  /-- What follows a branch without braces. -/
  | branchEnd
  | imported
  /-- The end of the file. -/
  | finished
  deriving DecidableEq, Repr

namespace Awaited

/-- The names between the parentheses of a function. -/
def signature : List Awaited :=
  [.token (.punct .lparen), .names, .token (.punct .rparen)]

def block (d : Dialect) : List Awaited :=
  [.token d.blockOpen, .declarations, .token d.blockClose]

/-- Elements between parentheses. -/
def arguments : List Awaited :=
  [.token (.punct .lparen), .elements, .token (.punct .rparen)]

/-- An expression, with operators of every strength. -/
def expression : List Awaited :=
  [.operand, .more, .commaMore]

/-- What a loop or a conditional says before its body. Only the brace dialect has parentheses
around it. -/
def header : Dialect → List Awaited → List Awaited
  | .brace, ws => .token (.punct .lparen) :: ws ++ [.token (.punct .rparen)]
  | .block, ws => ws

/-- What follows the word of a conditional. -/
def branch : Dialect → List Awaited
  | .brace => header .brace expression ++ block .brace ++ [.otherwise]
  | .block => expression ++ [.token (.keyword .thenKw), .declarations, .branchEnd]

/-- What the first token of an `operand` leaves to be read of it. -/
def takeOperand (d : Dialect) (k : TokenKind) : Option (List Awaited) :=
  if k = d.functionWord then some (.functionName :: signature ++ block d)
  else match k with
    | .symbol | .boolean | .fixnum | .flonum | .string | .badString | .regexp => some []
    | .punct .lparen => some [.elements, .token (.punct .rparen)]
    | .punct .lbrack => some [.elements, .token (.punct .rbrack)]
    | .punct .lbrace => some [.entries, .token (.punct .rbrace)]
    | .keyword .newKw => some [.token .symbol]
    | k => if (unaryOp? k).isSome then some [.operand] else none

/-- What a token after an `operand` leaves to be read. -/
def takeMore : TokenKind → Option (List Awaited)
  | .punct .dot => some [.member, .more]
  | .punct .lparen => some [.elements, .token (.punct .rparen), .more]
  | .punct .lbrack => some (expression ++ [.token (.punct .rbrack), .more])
  | .punct .arrow => some [.arrowBody, .more]
  | .punct .question => some [.operand, .more, .token (.punct .colon), .operand, .more]
  | .assign => some [.operand, .more]
  | k =>
    if (stepOp? k).isSome then some [.more]
    else if (infixOp? k).isSome then some [.operand, .more]
    else none

/-- What the first token of a declaration leaves to be read of it and of those after it. -/
def takeDeclaration (d : Dialect) (k : TokenKind) : Option (List Awaited) :=
  if k = d.functionWord then some (.token .symbol :: signature ++ block d ++ [.declarations])
  else if k = d.blockOpen then some [.declarations, .token d.blockClose, .declarations]
  else match k with
    | .keyword .exportKw | .keyword .asyncKw => some [.declarations]
    | .keyword .ifKw => some (branch d ++ [.declarations])
    | .keyword .whileKw => some (header d expression ++ block d ++ [.declarations])
    | .keyword .forKw =>
      some (header d (.loopWord :: .loopNames :: .token (.keyword .ofKw) :: expression) ++ block d
        ++ [.declarations])
    | .keyword .throwKw => some (expression ++ [.stop])
    | .keyword .returnKw => some [.returned, .stop]
    | .keyword .importKw => some [.imported, .token (.keyword .fromKw), .token .string, .stop]
    | .keyword .moduleKw => some [.token .symbol, .stop]
    | k =>
      if (varKeyword? k).isSome then some [.varTarget, .stop]
      else (takeOperand d k).map (· ++ [.more, .commaMore, .stop])

/-- What is awaited instead once a token has been taken, or `none` if it is not welcome. -/
def take (d : Dialect) (w : Awaited) (k : TokenKind) : Option (List Awaited) :=
  match w with
  | .token k' => if k = k' ∧ k ≠ .punct .semicolon then some [] else none
  | .operand => takeOperand d k
  | .more => takeMore k
  | .commaMore => List.lookup k [(.punct .comma, expression)]
  | .member => if k.namesMember then some [] else none
  | .arrowBody =>
    if k = d.blockOpen then some [.declarations, .token d.blockClose] else takeOperand d k
  | .elements => (takeOperand d k).map (· ++ [.more, .elementsMore])
  | .elementsMore => List.lookup k [(.punct .comma, [.elements])]
  | .entries =>
    List.lookup k [(.symbol, [.entryValue, .entriesMore]), (.string, [.entryValue, .entriesMore])]
  | .entryValue => List.lookup k [(.punct .colon, [.operand, .more])]
  | .entriesMore => List.lookup k [(.punct .comma, [.entries])]
  | .names => List.lookup k [(.symbol, [.namesMore])]
  | .namesMore => List.lookup k [(.punct .comma, [.names])]
  | .functionName => List.lookup k [(.symbol, [])]
  | .stop => List.lookup k [(.punct .semicolon, [.declarations])]
  | .returned => (takeOperand d k).map (· ++ [.more, .commaMore])
  | .declarations => takeDeclaration d k
  | .varTarget =>
    List.lookup k [(.symbol, [.varValue]),
      (.punct .lbrack, [.names, .token (.punct .rbrack), .token .assign, .operand, .more])]
  | .varValue => List.lookup k [(.assign, [.operand, .more])]
  | .loopWord => if (varKeyword? k).isSome then some [] else none
  | .loopNames =>
    List.lookup k [(.symbol, [.namesMore]), (.punct .lbrack, [.names, .token (.punct .rbrack)])]
  | .otherwise => List.lookup k [(.keyword .elseKw, [.otherwiseBody])]
  | .otherwiseBody =>
    List.lookup k [(.keyword .ifKw, branch .brace),
      (.punct .lbrace, [.declarations, .token (.punct .rbrace)])]
  | .branchEnd =>
    List.lookup k [(.keyword .endKw, []), (.keyword .elsifKw, branch .block),
      (.keyword .elseKw, [.declarations, .token (.keyword .endKw)])]
  | .imported =>
    List.lookup k [(.punct .star, [.token (.keyword .asKw), .token .symbol]),
      (.punct .lbrace, [.names, .token (.punct .rbrace)])]
  | .finished => List.lookup k [(.eof, [.finished])]

/-- Whether a token that `take` does not welcome may show that nothing comes here. -/
def skips (w : Awaited) (k : TokenKind) : Bool :=
  match w with
  -- A regular expression here would be a division that went wrong.
  | .more | .varValue => k != .regexp
  -- These welcome a regular expression, so they do not give way to an assignment.
  | .elements | .returned => k != .assign
  | .stop => closesConstruct k
  | .declarations => k == .punct .rbrace || closesConstruct k
  | .commaMore | .elementsMore | .entries | .entryValue | .entriesMore => true
  | .names | .namesMore | .functionName | .loopWord | .otherwise => true
  | _ => false

/-- What is awaited after a token: everything before what takes it has to be what it `skips`. -/
def advance (d : Dialect) : List Awaited → TokenKind → Option (List Awaited)
  | [], _ => none
  | w :: st, k =>
    match w.take d k with
    | some ws => some (ws ++ st)
    | none => if w.skips k then advance d st k else none

/-- Whether a tape brings what is awaited, and at its end nothing is missing. Comments are
passed over, and each token is one `advance`. -/
def run (d : Dialect) : List Awaited → Tape → Bool
  | st, [] => (advance d st .eof).isSome
  | st, .comment _ :: S => run d st S
  | st, .token k _ :: S =>
    match advance d st k with
    | some st' => run d st' S
    | none => false

variable {d : Dialect} {st st' : List Awaited} {S S' : Tape} {k : TokenKind}

/-- Only the first token matters for what is awaited before it: where `advance` agrees, so does
`run`. -/
theorem run_congr (h : advance d st S.kind = advance d st' S.kind) : run d st S = run d st' S := by
  induction S with
  | nil => exact congrArg Option.isSome h
  | cons p S ih =>
    cases p with
    | comment c => exact ih h
    | token k t =>
      have h' : advance d st k = advance d st' k := h
      simp only [run, h']

@[simp] theorem run_flush (st : List Awaited) (S : Tape) : run d st S.flush = run d st S := by
  induction S with
  | nil => rfl
  | cons p S ih =>
    cases p with
    | comment c => exact ih
    | token k t => rfl

end Awaited

open Awaited

section Moves

variable {d : Dialect} {st st' : List Awaited} {S S' : Tape} {k : TokenKind}

/-- One token of `run`, when it is known what `advance` makes of it. -/
theorem Takes.run_eq {t : String} (h : Takes S k t S') (hadv : advance d st k = some st') :
    run d st S = run d st' S' := by
  induction h with
  | token k t S => simp only [run, hadv]
  | comment c _ ih => exact ih hadv

theorem Passes.run_eq (h : Passes S k S') (hadv : advance d st k = some st') :
    run d st S = run d st' S' := by
  obtain ⟨t, ht⟩ := h
  exact ht.run_eq hadv

theorem Takes.run_token {t : String} (h : Takes S k t S') (hk : k ≠ .punct .semicolon) :
    run d (.token k :: st) S = run d st S' :=
  h.run_eq (by simp [advance, take, hk])

/-- A token that is awaited by its kind is taken off the stack. -/
theorem Passes.run_token (h : Passes S k S') (hk : k ≠ .punct .semicolon) :
    run d (.token k :: st) S = run d st S' :=
  h.run_eq (by simp [advance, take, hk])

/-- What is not there is not awaited any more: `skips` lets go of it. -/
theorem Awaited.run_skip {w : Awaited} (htake : w.take d S.kind = none)
    (hskip : w.skips S.kind = true) : run d (w :: st) S = run d st S :=
  run_congr (by simp [advance, htake, hskip])

theorem Awaited.advance_unaryOp {op : UnaryOp} (hk : unaryOp? k = some op) :
    advance d (.operand :: st) k = some (.operand :: st) := by
  unfold unaryOp? at hk
  split at hk <;> first | (cases d <;> rfl) | cases hk

theorem Awaited.advance_infixOp {op : BinaryOp} (hk : infixOp? k = some op) :
    advance d (.more :: st) k = some (.operand :: .more :: st) := by
  unfold infixOp? at hk
  split at hk <;> first | rfl | cases hk

theorem Awaited.advance_stepOp {op : StepOp} (hk : stepOp? k = some op) :
    advance d (.more :: st) k = some (.more :: st) := by
  unfold stepOp? at hk
  split at hk <;> first | rfl | cases hk

/-- The kinds of tokens that may come after all of an operand: `more` gives way to them. -/
def endsOperand : TokenKind → Bool
  | .punct .rparen | .punct .rbrack | .punct .rbrace | .punct .colon | .punct .comma => true
  | .punct .semicolon | .keyword .thenKw | .keyword .doKw => true
  | k => closesConstruct k

/-- At the end of an operand nothing `more` is awaited. -/
theorem Awaited.run_more (h : endsOperand S.kind = true) : run d (.more :: st) S = run d st S := by
  have hboth : ∀ k, endsOperand k = true → takeMore k = none ∧ k ≠ .regexp := by
    intro k hk
    unfold endsOperand closesConstruct at hk
    split at hk
    all_goals first
      | exact ⟨rfl, nofun⟩
      | (split at hk <;> first | exact ⟨rfl, nofun⟩ | cases hk)
  obtain ⟨htake, hne⟩ := hboth _ h
  exact run_skip htake (by simpa [skips] using hne)

/-- Without a comma there are no further operands, elements, entries or names. -/
theorem Awaited.run_noComma {w : Awaited}
    (hw : w ∈ [.commaMore, .elementsMore, .entriesMore, .namesMore])
    (h : S.kind ≠ .punct .comma) : run d (w :: st) S = run d st S := by
  simp only [List.mem_cons, List.not_mem_nil, or_false] at hw
  rcases hw with rfl | rfl | rfl | rfl <;>
    exact run_skip (by simp [take, List.lookup_eq_none_iff, h]) rfl

/-- Without a name there are no names, and a function has none. -/
theorem Awaited.run_noName {w : Awaited} (hw : w ∈ [.names, .functionName])
    (h : S.kind ≠ .symbol) : run d (w :: st) S = run d st S := by
  simp only [List.mem_cons, List.not_mem_nil, or_false] at hw
  rcases hw with rfl | rfl <;> exact run_skip (by simp [take, List.lookup_eq_none_iff, h]) rfl

theorem Awaited.run_arrowBody (h : S.kind ≠ d.blockOpen) :
    run d (.arrowBody :: st) S = run d (.operand :: st) S :=
  run_congr (by simp [advance, take, h, skips])

theorem Awaited.run_entryValue (h : S.kind ≠ .punct .colon) :
    run d (.entryValue :: st) S = run d st S :=
  run_skip (by simp [take, List.lookup_eq_none_iff, h]) rfl

theorem Awaited.advance_key {t : String} {key : Key} (hk : Key.ofToken? t k = some key) :
    advance d (.entries :: st) k = some (.entryValue :: .entriesMore :: st) := by
  unfold Key.ofToken? at hk
  split at hk <;> first | rfl | cases hk

theorem Awaited.run_otherwise (h : S.kind ≠ .keyword .elseKw) :
    run d (.otherwise :: st) S = run d st S :=
  run_skip (by simp [take, List.lookup_eq_none_iff, h]) rfl

/-- After an `expression` with operators of every strength nothing of it is awaited. -/
theorem Awaited.run_expression (h : endsOperand S.kind = true) (hc : S.kind ≠ .punct .comma) :
    run d (.more :: .commaMore :: st) S = run d st S :=
  (run_more h).trans (run_noComma (by simp) hc)

/-- The token that closes what stands around an operand. -/
theorem Passes.run_afterOperand (h : Passes S k S') (hk : endsOperand k = true)
    (hs : k ≠ .punct .semicolon) : run d (.more :: .token k :: st) S = run d st S' :=
  (run_more (h.kind_eq ▸ hk)).trans (h.run_token hs)

theorem Passes.run_afterExpression (h : Passes S k S') (hk : endsOperand k = true)
    (hs : k ≠ .punct .semicolon) (hc : k ≠ .punct .comma) :
    run d (.more :: .commaMore :: .token k :: st) S = run d st S' :=
  (run_expression (h.kind_eq ▸ hk) (h.kind_eq ▸ hc)).trans (h.run_token hs)

/-- `takeOperand` welcomes the tokens that `startsExpression` tells of. -/
theorem Awaited.isSome_takeOperand (d : Dialect) (k : TokenKind) :
    (takeOperand d k).isSome = startsExpression d k := by
  unfold takeOperand startsExpression
  by_cases hk : k = d.functionWord
  · simp [hk]
  · rw [if_neg hk, beq_false_of_ne hk, Bool.false_or]
    split <;> first | rfl | skip
    split <;> simp_all

/-- Elements begin with an operand if there are any; `run_returned` says the same of what is
returned. -/
theorem Awaited.run_elements (h : startsExpression d S.kind = true) :
    run d (.elements :: st) S = run d (.operand :: .more :: .elementsMore :: st) S := by
  rw [← isSome_takeOperand, Option.isSome_iff_exists] at h
  obtain ⟨ws, hws⟩ := h
  exact run_congr (by simp [advance, take, hws])

theorem Awaited.run_returned (h : startsExpression d S.kind = true) :
    run d (.returned :: st) S = run d (.operand :: .more :: .commaMore :: st) S := by
  rw [← isSome_takeOperand, Option.isSome_iff_exists] at h
  obtain ⟨ws, hws⟩ := h
  exact run_congr (by simp [advance, take, hws])

/-- A statement that is an expression, where `declarations` are awaited. -/
theorem Awaited.run_declarations (h : startsExpression d S.kind = true)
    (hf : S.kind ≠ d.functionWord) (ho : S.kind ≠ d.blockOpen) :
    run d (.declarations :: st) S = run d (.operand :: .more :: .commaMore :: .stop :: st) S := by
  have htake : ∀ k, startsExpression d k = true → k ≠ d.functionWord → k ≠ d.blockOpen →
      takeDeclaration d k = (takeOperand d k).map (· ++ [.more, .commaMore, .stop]) := by
    intro k hk hf ho
    unfold takeDeclaration
    rw [if_neg hf, if_neg ho]
    split <;> first | (cases d <;> cases hk) | skip
    split
    · next hvar =>
      unfold varKeyword? at hvar
      split at hvar <;> first | (cases d <;> cases hk) | cases hvar
    · rfl
  have hsome := h
  rw [← isSome_takeOperand, Option.isSome_iff_exists] at hsome
  obtain ⟨ws, hws⟩ := hsome
  exact run_congr (by simp [advance, take, htake _ h hf ho, hws])

/-- A block where the body of an arrow is awaited, or a declaration: its opening leaves what
`Awaited.block` has after it. -/
theorem Awaited.run_block (h : S.kind = d.blockOpen) :
    run d (.arrowBody :: st) S = run d (Awaited.block d ++ st) S ∧
      run d (.declarations :: st) S = run d (Awaited.block d ++ .declarations :: st) S := by
  constructor <;> refine run_congr ?_ <;> rw [h] <;> cases d <;> rfl

/-- What ends a statement: a semicolon, or what `closesConstruct` tells of. -/
theorem Reads.kind_of_endStatement (h : Reads d .endStatement S () S') :
    S.kind = .punct .semicolon ∨ closesConstruct S.kind = true := by
  cases h with
  | endSemicolon h => exact .inl h.kind_eq
  | endClosed _ h => exact .inr h

/-- Arguments after an operand, and elements between parentheses in the place of one. -/
theorem Awaited.run_arguments {args : Expr} (h : Reads d .arguments S args S') :
    run d (.operand :: .more :: st) S = run d (Awaited.arguments ++ .more :: st) S ∧
      run d (.more :: st) S = run d (Awaited.arguments ++ .more :: st) S := by
  cases h with
  | arguments h _ _ =>
    have hkind := h.kind_eq
    constructor <;> refine run_congr ?_ <;> rw [hkind] <;> cases d <;> rfl

/-- What ends a statement ends an operand, and is no comma. -/
theorem endsOperand_of_stops (h : k = .punct .semicolon ∨ closesConstruct k = true) :
    endsOperand k = true ∧ k ≠ .punct .comma := by
  rcases h with rfl | h
  · exact ⟨rfl, nofun⟩
  · unfold closesConstruct at h
    split at h <;> first | exact ⟨rfl, nofun⟩ | cases h

theorem Awaited.run_stop (h : closesConstruct S.kind = true) :
    run d (.stop :: st) S = run d st S := by
  refine run_skip ?_ h
  have hne : S.kind ≠ .punct .semicolon := fun hk => absurd (hk ▸ h) (by decide)
  simp [take, List.lookup_eq_none_iff, hne]

/-- The end of a statement after an operand, an expression, or the name of a variable leaves
`stop` alone. -/
theorem Reads.stop_more (h : Reads d .endStatement S () S') :
    run d (.more :: .stop :: st) S = run d (.stop :: st) S :=
  Awaited.run_more (endsOperand_of_stops h.kind_of_endStatement).1

theorem Reads.stop_expression (h : Reads d .endStatement S () S') :
    run d (.more :: .commaMore :: .stop :: st) S = run d (.stop :: st) S :=
  Awaited.run_expression (endsOperand_of_stops h.kind_of_endStatement).1
    (endsOperand_of_stops h.kind_of_endStatement).2

theorem Reads.stop_varValue (h : Reads d .endStatement S () S') :
    run d (.varValue :: .stop :: st) S = run d (.stop :: st) S := by
  have hne := endsOperand_of_stops h.kind_of_endStatement
  refine run_skip ?_ ?_
  · have hassign : S.kind ≠ .assign := fun hk => absurd (hk ▸ hne.1) (by decide)
    simp [take, List.lookup_eq_none_iff, hassign]
  · have hregexp : S.kind ≠ .regexp := fun hk => absurd (hk ▸ hne.1) (by decide)
    simpa [skips] using hregexp

theorem Reads.stop_returned (h : Reads d .endStatement S () S')
    (hk : Diglot.startsExpression d S.kind = false) :
    run d (.returned :: .stop :: st) S = run d (.stop :: st) S := by
  have hne := endsOperand_of_stops h.kind_of_endStatement
  rw [← isSome_takeOperand, Option.isSome_eq_false_iff, Option.isNone_iff_eq_none] at hk
  refine run_skip (by simp [take, hk]) ?_
  have hassign : S.kind ≠ .assign := fun hk => absurd (hk ▸ hne.1) (by decide)
  simpa [skips] using hassign

/-- The words `export` and `async` leave `declarations` awaited, whether they are there or not. -/
theorem Flag.run_declarations {w : Keyword} {b : Bool} (hw : w = .exportKw ∨ w = .asyncKw)
    (h : Flag (.keyword w) S b S') :
    run d (.declarations :: st) S = run d (.declarations :: st) S' := by
  cases h with
  | yes h => exact h.run_eq (by rcases hw with rfl | rfl <;> cases d <;> rfl)
  | no _ => rfl

theorem Awaited.advance_varKeyword {kw : VarKeyword} (hk : varKeyword? k = some kw) :
    advance d (.declarations :: st) k = some (.varTarget :: .stop :: st) := by
  unfold varKeyword? at hk
  split at hk <;> first | (cases d <;> rfl) | cases hk

theorem Perhaps.run_loopWord {kw : Option VarKeyword} (h : Perhaps varKeyword? S kw S') :
    run d (.loopWord :: st) S = run d st S' := by
  cases h with
  | some h hk => exact h.run_eq (by simp [advance, take, hk])
  | none h => exact run_skip (by simp [take, h]) rfl

/-- What closes a block, in either dialect. More is let through than `Dialect.blockClose`. -/
def closesBlock (k : TokenKind) : Bool :=
  k == .punct .rbrace || closesConstruct k

/-- Where a block is closed no `declarations` are awaited. -/
theorem Awaited.run_closed (h : closesBlock S.kind = true) :
    run d (.declarations :: st) S = run d st S := by
  have htake : ∀ k, closesBlock k = true → takeDeclaration d k = none := by
    intro k hk
    simp only [closesBlock, Bool.or_eq_true, beq_iff_eq] at hk
    rcases hk with rfl | hk
    · cases d <;> rfl
    · unfold closesConstruct at hk
      split at hk <;> first | (cases d <;> rfl) | cases hk
  exact run_skip (htake _ h) h

end Moves

/-! ## Derivations move the reading along -/

/-- What a phrase does to a reading that awaits it, whatever the rest of the stack. The phrases
that give way to what closes them say so only where something does. -/
def Phrase.Moves (d : Dialect) : Phrase → Tape → Tape → Prop
  | .names, S, S' => ∀ st, run d (.names :: st) S = run d st S'
  | .block, S, S' => ∀ st, run d (Awaited.block d ++ st) S = run d st S'
  | .signature, S, S' => ∀ st, run d (Awaited.signature ++ st) S = run d st S'
  | .arguments, S, S' => ∀ st, run d (Awaited.arguments ++ st) S = run d st S'
  | .primary, S, S' | .member, S, S' | .step, S, S' | .unary, S, S' | .climb _, S, S'
  | .assignment, S, S' => ∀ st, run d (.operand :: .more :: st) S = run d (.more :: st) S'
  | .pathFrom _, S, S' | .memberFrom _, S, S' | .climbFrom _ _, S, S' =>
    ∀ st, run d (.more :: st) S = run d (.more :: st) S'
  | .sequenceFrom _, S, S' =>
    ∀ st, run d (.more :: .commaMore :: st) S = run d (.more :: .commaMore :: st) S'
  | .expr, S, S' => ∀ st, run d (Awaited.expression ++ st) S = run d (.more :: .commaMore :: st) S'
  | .elements _ _, S, S' =>
    S'.kind = .punct .rparen ∨ S'.kind = .punct .rbrack →
      ∀ st, run d (.elements :: st) S = run d st S'
  | .entry, S, S' =>
    S'.kind = .punct .comma ∨ S'.kind = .punct .rbrace →
      ∀ st, run d (.entries :: st) S = run d (.entriesMore :: st) S'
  | .entries, S, S' => S'.kind = .punct .rbrace → ∀ st, run d (.entries :: st) S = run d st S'
  | .endStatement, S, S' => ∀ st, run d (.stop :: st) S = run d (.declarations :: st) S'
  | .conditional, S, S' => ∀ st, run d (branch d ++ st) S = run d st S'
  | .loopHeader, S, S' =>
    ∀ st, run d (.loopWord :: .loopNames :: .token (.keyword .ofKw) :: expression ++ st) S =
      run d (.more :: .commaMore :: st) S'
  | .statement, S, S' =>
    S.kind ≠ d.functionWord → ∀ st, run d (.declarations :: st) S = run d (.declarations :: st) S'
  | .declaration, S, S' | .imports, S, S' =>
    ∀ st, run d (.declarations :: st) S = run d (.declarations :: st) S'
  | .declarations, S, S' =>
    closesBlock S'.kind = true → ∀ st, run d (.declarations :: st) S = run d st S'
  | .importedNames, S, S' =>
    ∀ st, run d (.imported :: .token (.keyword .fromKw) :: .token .string :: st) S = run d st S'

/-- The variables of a loop, between brackets or not, are what `loopNames` awaits. -/
theorem Awaited.run_loopNames {d : Dialect} {S₁ S₂ S₃ S₄ : Tape} {b : Bool} {ns : List String}
    {st : List Awaited} (ho : Flag (.punct .lbrack) S₁ b S₂) (hns : Reads d .names S₂ ns S₃)
    (hne : ns ≠ []) (ih : Phrase.Moves d .names S₂ S₃)
    (hc : PassesIf (.punct .rbrack) b S₃ S₄) : run d (.loopNames :: st) S₁ = run d st S₄ := by
  cases ho with
  | yes ho =>
    cases hc with
    | yes hc =>
      calc run d (.loopNames :: st) _
        _ = run d (.names :: .token (.punct .rbrack) :: st) _ := ho.run_eq rfl
        _ = run d (.token (.punct .rbrack) :: st) _ := ih _
        _ = run d st _ := hc.run_token nofun
  | no _ =>
    cases hc with
    | no =>
      have hsymbol : S₁.kind = .symbol := by
        cases hns with
        | namesNone _ => exact absurd rfl hne
        | namesLast h _ | namesMore h _ _ => exact h.kind_eq
      have hnames : run d (.loopNames :: st) S₁ = run d (.names :: st) S₁ :=
        run_congr (by rw [hsymbol]; rfl)
      exact hnames.trans (ih st)

/-- A branch of a conditional with its test, up to what may follow it. -/
theorem Awaited.run_braceBranch {S₁ S₂ S₃ S₄ S₅ : Tape} {st : List Awaited}
    (ho : Passes S₁ (.punct .lparen) S₂) (iht : Phrase.Moves .brace .expr S₂ S₃)
    (hc : Passes S₃ (.punct .rparen) S₄) (ihb : Phrase.Moves .brace .block S₄ S₅) :
    run .brace (branch .brace ++ st) S₁ = run .brace (.otherwise :: st) S₅ :=
  calc run .brace (branch .brace ++ st) S₁
    _ = run .brace (expression ++ .token (.punct .rparen) ::
        (Awaited.block .brace ++ .otherwise :: st)) S₂ := ho.run_token nofun
    _ = run .brace (.more :: .commaMore :: .token (.punct .rparen) ::
        (Awaited.block .brace ++ .otherwise :: st)) S₃ := iht _
    _ = run .brace (Awaited.block .brace ++ .otherwise :: st) S₄ :=
      hc.run_afterExpression rfl nofun nofun
    _ = run .brace (.otherwise :: st) S₅ := ihb _

theorem Awaited.run_blockBranch {S₁ S₂ S₃ S₄ : Tape} {st : List Awaited}
    (iht : Phrase.Moves .block .expr S₁ S₂) (h : Passes S₂ (.keyword .thenKw) S₃)
    (ihb : Phrase.Moves .block .declarations S₃ S₄) (hend : closesBlock S₄.kind = true) :
    run .block (branch .block ++ st) S₁ = run .block (.branchEnd :: st) S₄ :=
  calc run .block (branch .block ++ st) S₁
    _ = run .block (.more :: .commaMore :: .token (.keyword .thenKw) ::
        .declarations :: .branchEnd :: st) S₂ := iht _
    _ = run .block (.declarations :: .branchEnd :: st) S₃ :=
      h.run_afterExpression rfl nofun nofun
    _ = run .block (.branchEnd :: st) S₄ := ihb hend _

/-- The parameters of an arrow function are awaited as `Awaited.arguments`, its body after the
arrow. -/
theorem Awaited.run_arrowHead {d : Dialect} {S S₁ S₂ : Tape} {params : Expr} {st : List Awaited}
    (h : Reads d .arguments S params S₁) (ih : Phrase.Moves d .arguments S S₁)
    (ha : Passes S₁ (.punct .arrow) S₂) :
    run d (.operand :: .more :: st) S = run d (.arrowBody :: .more :: st) S₂ :=
  calc run d (.operand :: .more :: st) S
    _ = run d (Awaited.arguments ++ .more :: st) S := (run_arguments h).1
    _ = run d (.more :: st) S₁ := ih _
    _ = run d (.arrowBody :: .more :: st) S₂ := ha.run_eq rfl

/-- After the words that begin it, a declaration of variables awaits `varTarget`. -/
theorem Awaited.run_variable {d : Dialect} {S S₁ S₂ : Tape} {exported : Bool} {k : TokenKind}
    {kw : VarKeyword} {st : List Awaited} (he : Flag (.keyword .exportKw) S exported S₁)
    (h : Passes S₁ k S₂) (hk : varKeyword? k = some kw) :
    run d (.declarations :: st) S = run d (.varTarget :: .stop :: st) S₂ :=
  calc run d (.declarations :: st) S
    _ = run d (.declarations :: st) S₁ := he.run_declarations (.inl rfl)
    _ = run d (.varTarget :: .stop :: st) S₂ := h.run_eq (advance_varKeyword hk)

/-- A derivation moves the coarse reading from what it finds to what it leaves. The induction is on
the derivation; each chain below says what is awaited after one more part of the phrase. -/
theorem Reads.moves {d : Dialect} {φ : Phrase} {S S' : Tape} {a : φ.Out} (h : Reads d φ S a S') :
    φ.Moves d S S' := by
  induction h with
  -- names
  | namesNone h => exact fun st => run_noName (by simp) h
  | namesLast h hc => exact fun st => (h.run_eq rfl).trans (run_noComma (by simp) hc)
  | namesMore h hc _ ih =>
    intro st
    calc run d (.names :: st) _ = run d (.namesMore :: st) _ := h.run_eq rfl
      _ = run d (.names :: st) _ := hc.run_eq rfl
      _ = run d st _ := ih st
  -- blocks and parentheses
  | block h _ hc ih =>
    intro st
    have hclose : closesBlock d.blockClose = true := by cases d <;> rfl
    calc run d (Awaited.block d ++ st) _
      _ = run d (.declarations :: .token d.blockClose :: st) _ := h.run_token (by cases d <;> nofun)
      _ = run d (.token d.blockClose :: st) _ := ih (hc.kind_eq ▸ hclose) _
      _ = run d st _ := hc.run_token (by cases d <;> nofun)
  | signature h _ hc ih =>
    intro st
    calc run d (Awaited.signature ++ st) _
      _ = run d (.names :: .token (.punct .rparen) :: st) _ := h.run_token nofun
      _ = run d (.token (.punct .rparen) :: st) _ := ih _
      _ = run d st _ := hc.run_token nofun
  | arguments h _ hc ih =>
    intro st
    calc run d (Awaited.arguments ++ st) _
      _ = run d (.elements :: .token (.punct .rparen) :: st) _ := h.run_token nofun
      _ = run d (.token (.punct .rparen) :: st) _ := ih (.inl hc.kind_eq) _
      _ = run d st _ := hc.run_token nofun
  -- names and literals
  | symbol h | boolean h | fixnum h _ | flonum h | string h | regexp h =>
    exact fun st => h.run_eq (by cases d <;> rfl)
  -- what stands between brackets
  | object h _ hc ih =>
    intro st
    calc run d (.operand :: .more :: st) _
      _ = run d (.entries :: .token (.punct .rbrace) :: .more :: st) _ :=
        h.run_eq (by cases d <;> rfl)
      _ = run d (.token (.punct .rbrace) :: .more :: st) _ := ih hc.kind_eq _
      _ = run d (.more :: st) _ := hc.run_token nofun
  | array h _ hc ih =>
    intro st
    calc run d (.operand :: .more :: st) _
      _ = run d (.elements :: .token (.punct .rbrack) :: .more :: st) _ :=
        h.run_eq (by cases d <;> rfl)
      _ = run d (.token (.punct .rbrack) :: .more :: st) _ := ih (.inr hc.kind_eq) _
      _ = run d (.more :: st) _ := hc.run_token nofun
  | grouping h _ ih => exact fun st => (run_arguments h).1.trans (ih _)
  | list h _ _ _ ih => exact fun st => (run_arguments h).1.trans (ih _)
  -- functions
  | functionNamed h hn _ _ ihp ihb =>
    intro st
    calc run d (.operand :: .more :: st) _
      _ = run d (.functionName :: Awaited.signature ++ (Awaited.block d ++ .more :: st)) _ :=
        h.run_eq (by cases d <;> rfl)
      _ = run d (Awaited.signature ++ (Awaited.block d ++ .more :: st)) _ := hn.run_eq rfl
      _ = run d (Awaited.block d ++ .more :: st) _ := ihp _
      _ = run d (.more :: st) _ := ihb _
  | functionBare h hn _ _ ihp ihb =>
    intro st
    calc run d (.operand :: .more :: st) _
      _ = run d (.functionName :: Awaited.signature ++ (Awaited.block d ++ .more :: st)) _ :=
        h.run_eq (by cases d <;> rfl)
      _ = run d (Awaited.signature ++ (Awaited.block d ++ .more :: st)) _ :=
        run_noName (by simp) hn
      _ = run d (Awaited.block d ++ .more :: st) _ := ihp _
      _ = run d (.more :: st) _ := ihb _
  | arrow h ha ho _ ihargs ihbody =>
    intro st
    calc run d (.operand :: .more :: st) _
      _ = run d (.arrowBody :: .more :: st) _ := run_arrowHead h ihargs ha
      _ = run d (.operand :: .more :: st) _ := run_arrowBody ho
      _ = run d (.more :: st) _ := ihbody st
  | arrowBlock h ha hb ihargs ihbody =>
    intro st
    calc run d (.operand :: .more :: st) _
      _ = run d (.arrowBody :: .more :: st) _ := run_arrowHead h ihargs ha
      _ = run d (Awaited.block d ++ .more :: st) _ := (run_block hb.kind_of_block).1
      _ = run d (.more :: st) _ := ihbody _
  -- values and what follows them
  | pathEnd _ | memberEnd _ | climbEnd _ => exact fun st => rfl
  | pathMore h hn hk _ ih | memberDot _ h hn hk _ ih =>
    intro st
    calc run d (.more :: st) _ = run d (.member :: .more :: st) _ := h.run_eq rfl
      _ = run d (.more :: st) _ := hn.run_eq (by simp [advance, take, hk])
      _ = run d (.more :: st) _ := ih st
  | memberCall _ h _ ihargs ih =>
    intro st
    calc run d (.more :: st) _
      _ = run d (Awaited.arguments ++ .more :: st) _ := (run_arguments h).2
      _ = run d (.more :: st) _ := ihargs _
      _ = run d (.more :: st) _ := ih st
  | memberIndex _ h _ hc _ ihp ih =>
    intro st
    calc run d (.more :: st) _
      _ = run d (expression ++ .token (.punct .rbrack) :: .more :: st) _ := h.run_eq rfl
      _ = run d (.more :: .commaMore :: .token (.punct .rbrack) :: .more :: st) _ := ihp _
      _ = run d (.more :: st) _ := hc.run_afterExpression rfl nofun nofun
      _ = run d (.more :: st) _ := ih st
  | newBare h hn _ _ ih =>
    intro st
    calc run d (.operand :: .more :: st) _
      _ = run d (.token .symbol :: .more :: st) _ := h.run_eq (by cases d <;> rfl)
      _ = run d (.more :: st) _ := hn.run_token nofun
      _ = run d (.more :: st) _ := ih st
  | newCall h hn _ ha _ iht ihargs ih =>
    intro st
    calc run d (.operand :: .more :: st) _
      _ = run d (.token .symbol :: .more :: st) _ := h.run_eq (by cases d <;> rfl)
      _ = run d (.more :: st) _ := hn.run_token nofun
      _ = run d (.more :: st) _ := iht st
      _ = run d (Awaited.arguments ++ .more :: st) _ := (run_arguments ha).2
      _ = run d (.more :: st) _ := ihargs _
      _ = run d (.more :: st) _ := ih st
  | member _ _ _ ihe ih | climb _ _ ihe ih => exact fun st => (ihe st).trans (ih st)
  -- operators
  | stepNone _ _ ih | unaryNone _ _ ih | assignmentNone _ _ _ ih => exact ih
  | stepSome _ h hk _ ih => exact fun st => (ih st).trans (h.run_eq (advance_stepOp hk))
  | unarySome h hk _ _ ih => exact fun st => (h.run_eq (advance_unaryOp hk)).trans (ih st)
  | climbMore h hk _ _ _ _ _ _ ihr ih =>
    intro st
    calc run d (.more :: st) _
      _ = run d (.operand :: .more :: st) _ := h.run_eq (advance_infixOp hk)
      _ = run d (.more :: st) _ := ihr st
      _ = run d (.more :: st) _ := ih st
  | assignmentSome _ h _ _ _ _ ihl ihr =>
    intro st
    calc run d (.operand :: .more :: st) _ = run d (.more :: st) _ := ihl st
      _ = run d (.operand :: .more :: st) _ := h.run_eq rfl
      _ = run d (.more :: st) _ := ihr st
  | ternary _ h _ _ hc _ iht ihy ihn =>
    intro st
    calc run d (.operand :: .more :: st) _ = run d (.more :: st) _ := iht st
      _ = run d (.operand :: .more :: .token (.punct .colon) :: .operand :: .more :: st) _ :=
        h.run_eq rfl
      _ = run d (.more :: .token (.punct .colon) :: .operand :: .more :: st) _ := ihy _
      _ = run d (.operand :: .more :: st) _ := hc.run_afterOperand rfl nofun
      _ = run d (.more :: st) _ := ihn st
  | sequenceEnd _ => exact fun st => rfl
  | sequenceMore h _ _ ihr ih =>
    intro st
    calc run d (.more :: .commaMore :: st) _
      _ = run d (.operand :: .more :: .commaMore :: st) _ := h.run_eq rfl
      _ = run d (.more :: .commaMore :: st) _ := ihr _
      _ = run d (.more :: .commaMore :: st) _ := ih st
  | expr _ _ ihe ih => exact fun st => (ihe _).trans (ih st)
  -- elements and entries
  | elementsNone h =>
    intro hclose st
    refine run_skip ?_ ?_ <;> rcases hclose with hk | hk <;> rw [hk]
    all_goals cases d <;> rfl
  | elementsLast _ he hc ih =>
    intro hclose st
    calc run d (.elements :: st) _
      _ = run d (.operand :: .more :: .elementsMore :: st) _ :=
        run_elements (he.startsExpression rfl)
      _ = run d (.more :: .elementsMore :: st) _ := ih _
      _ = run d (.elementsMore :: st) _ :=
        run_more (by rcases hclose with hk | hk <;> rw [hk] <;> rfl)
      _ = run d st _ := run_noComma (by simp) hc
  | elementsMore _ he hc _ ihe ih =>
    intro hclose st
    calc run d (.elements :: st) _
      _ = run d (.operand :: .more :: .elementsMore :: st) _ :=
        run_elements (he.startsExpression rfl)
      _ = run d (.more :: .elementsMore :: st) _ := ihe _
      _ = run d (.elements :: st) _ := hc.run_eq rfl
      _ = run d st _ := ih hclose st
  | entryShort h hk hc =>
    intro _ st
    exact (h.run_eq (advance_key hk)).trans (run_entryValue hc)
  | entryPair h hk hc _ ih =>
    intro hclose st
    calc run d (.entries :: st) _
      _ = run d (.entryValue :: .entriesMore :: st) _ := h.run_eq (advance_key hk)
      _ = run d (.operand :: .more :: .entriesMore :: st) _ := hc.run_eq rfl
      _ = run d (.more :: .entriesMore :: st) _ := ih _
      _ = run d (.entriesMore :: st) _ :=
        run_more (by rcases hclose with hk | hk <;> rw [hk] <;> rfl)
  | entriesNone _ =>
    intro hclose st
    exact run_skip (by rw [hclose]; rfl) rfl
  | entriesLast _ _ hc ih =>
    intro hclose st
    exact (ih (.inr hclose) st).trans (run_noComma (by simp) hc)
  | entriesMore _ _ hc _ ihe ih =>
    intro hclose st
    calc run d (.entries :: st) _ = run d (.entriesMore :: st) _ := ihe (.inl hc.kind_eq) st
      _ = run d (.entries :: st) _ := hc.run_eq rfl
      _ = run d st _ := ih hclose st
  -- conditionals and loops
  | endSemicolon h => exact fun st => h.run_eq rfl
  | endClosed _ h =>
    intro st
    have hclosed : run d (.stop :: st) _ = run d st _ := run_stop h
    exact hclosed.trans (run_closed (by simp [closesBlock, h])).symm
  | braceIf hd h _ hc _ he iht ihb =>
    subst hd
    intro st
    calc run .brace (branch .brace ++ st) _
      _ = run .brace (.otherwise :: st) _ := run_braceBranch h iht hc ihb
      _ = run .brace st _ := run_otherwise he
  | braceIfElse hd h _ hc _ he hi ho iht ihb iho =>
    subst hd
    intro st
    have hblock := ho.kind_of_block
    calc run .brace (branch .brace ++ st) _
      _ = run .brace (.otherwise :: st) _ := run_braceBranch h iht hc ihb
      _ = run .brace (.otherwiseBody :: st) _ := he.run_eq rfl
      _ = run .brace (Awaited.block .brace ++ st) _ := run_congr (by rw [hblock]; rfl)
      _ = run .brace st _ := iho st
  | braceIfElseIf hd h _ hc _ he hi _ iht ihb iho =>
    subst hd
    intro st
    calc run .brace (branch .brace ++ st) _
      _ = run .brace (.otherwise :: st) _ := run_braceBranch h iht hc ihb
      _ = run .brace (.otherwiseBody :: st) _ := he.run_eq rfl
      _ = run .brace (branch .brace ++ st) _ := hi.run_eq rfl
      _ = run .brace st _ := iho st
  | blockIf hd _ h _ he iht ihb =>
    subst hd
    intro st
    calc run .block (branch .block ++ st) _
      _ = run .block (.branchEnd :: st) _ := run_blockBranch iht h ihb (he.kind_eq ▸ rfl)
      _ = run .block st _ := he.run_eq rfl
  | blockIfElse hd _ h _ he _ hc iht ihb iho =>
    subst hd
    intro st
    calc run .block (branch .block ++ st) _
      _ = run .block (.branchEnd :: st) _ := run_blockBranch iht h ihb (he.kind_eq ▸ rfl)
      _ = run .block (.declarations :: .token (.keyword .endKw) :: st) _ := he.run_eq rfl
      _ = run .block (.token (.keyword .endKw) :: st) _ := iho (hc.kind_eq ▸ rfl) _
      _ = run .block st _ := hc.run_token nofun
  | blockIfElsif hd _ h _ he _ iht ihb iho =>
    subst hd
    intro st
    calc run .block (branch .block ++ st) _
      _ = run .block (.branchEnd :: st) _ := run_blockBranch iht h ihb (he.kind_eq ▸ rfl)
      _ = run .block (branch .block ++ st) _ := he.run_eq rfl
      _ = run .block st _ := iho st
  | loopHeader hk ho hns hne hc h _ ihn ihe =>
    intro st
    calc run d (.loopWord :: .loopNames :: .token (.keyword .ofKw) :: expression ++ st) _
      _ = run d (.loopNames :: .token (.keyword .ofKw) :: expression ++ st) _ := hk.run_loopWord
      _ = run d (.token (.keyword .ofKw) :: expression ++ st) _ := run_loopNames ho hns hne ihn hc
      _ = run d (expression ++ st) _ := h.run_token nofun
      _ = run d (.more :: .commaMore :: st) _ := ihe st
  -- statements
  | ifStatement h _ ih =>
    intro _ st
    calc run d (.declarations :: st) _
      _ = run d (branch d ++ .declarations :: st) _ := h.run_eq (by cases d <;> rfl)
      _ = run d (.declarations :: st) _ := ih _
  | braceWhile hd h ho _ hc _ iht ihb =>
    subst hd
    intro _ st
    calc run .brace (.declarations :: st) _
      _ = run .brace (.token (.punct .lparen) :: expression ++ .token (.punct .rparen) ::
          (Awaited.block .brace ++ .declarations :: st)) _ := h.run_eq rfl
      _ = run .brace (expression ++ .token (.punct .rparen) ::
          (Awaited.block .brace ++ .declarations :: st)) _ := ho.run_token nofun
      _ = run .brace (.more :: .commaMore :: .token (.punct .rparen) ::
          (Awaited.block .brace ++ .declarations :: st)) _ := iht _
      _ = run .brace (Awaited.block .brace ++ .declarations :: st) _ :=
        hc.run_afterExpression rfl nofun nofun
      _ = run .brace (.declarations :: st) _ := ihb _
  | blockWhile hd h _ hb iht ihb =>
    subst hd
    intro _ st
    have hdo := hb.kind_of_block
    calc run .block (.declarations :: st) _
      _ = run .block (expression ++ (Awaited.block .block ++ .declarations :: st)) _ := h.run_eq rfl
      _ = run .block (.more :: .commaMore :: (Awaited.block .block ++ .declarations :: st)) _ :=
        iht _
      _ = run .block (Awaited.block .block ++ .declarations :: st) _ :=
        Awaited.run_expression (hdo ▸ rfl) (hdo ▸ nofun)
      _ = run .block (.declarations :: st) _ := ihb _
  | braceFor hd h ho _ hc _ ihh ihb =>
    subst hd
    intro _ st
    calc run .brace (.declarations :: st) _
      _ = run .brace (.token (.punct .lparen) :: .loopWord :: .loopNames ::
          .token (.keyword .ofKw) :: expression ++ .token (.punct .rparen) ::
            (Awaited.block .brace ++ .declarations :: st)) _ := h.run_eq rfl
      _ = run .brace (.loopWord :: .loopNames :: .token (.keyword .ofKw) :: expression ++
          .token (.punct .rparen) :: (Awaited.block .brace ++ .declarations :: st)) _ :=
        ho.run_token nofun
      _ = run .brace (.more :: .commaMore :: .token (.punct .rparen) ::
          (Awaited.block .brace ++ .declarations :: st)) _ := ihh _
      _ = run .brace (Awaited.block .brace ++ .declarations :: st) _ :=
        hc.run_afterExpression rfl nofun nofun
      _ = run .brace (.declarations :: st) _ := ihb _
  | blockFor hd h _ hb ihh ihb =>
    subst hd
    intro _ st
    have hdo := hb.kind_of_block
    calc run .block (.declarations :: st) _
      _ = run .block (.loopWord :: .loopNames :: .token (.keyword .ofKw) :: expression ++
          (Awaited.block .block ++ .declarations :: st)) _ := h.run_eq rfl
      _ = run .block (.more :: .commaMore :: (Awaited.block .block ++ .declarations :: st)) _ :=
        ihh _
      _ = run .block (Awaited.block .block ++ .declarations :: st) _ :=
        Awaited.run_expression (hdo ▸ rfl) (hdo ▸ nofun)
      _ = run .block (.declarations :: st) _ := ihb _
  | throw h _ hs ihe ihs =>
    intro _ st
    calc run d (.declarations :: st) _
      _ = run d (expression ++ .stop :: st) _ := h.run_eq (by cases d <;> rfl)
      _ = run d (.more :: .commaMore :: .stop :: st) _ := ihe _
      _ = run d (.stop :: st) _ := hs.stop_expression
      _ = run d (.declarations :: st) _ := ihs st
  | retNone h hk hs ihs =>
    intro _ st
    calc run d (.declarations :: st) _
      _ = run d (.returned :: .stop :: st) _ := h.run_eq (by cases d <;> rfl)
      _ = run d (.stop :: st) _ := hs.stop_returned hk
      _ = run d (.declarations :: st) _ := ihs st
  | retSome h hk _ hs ihe ihs =>
    intro _ st
    calc run d (.declarations :: st) _
      _ = run d (.returned :: .stop :: st) _ := h.run_eq (by cases d <;> rfl)
      _ = run d (.operand :: .more :: .commaMore :: .stop :: st) _ := Awaited.run_returned hk
      _ = run d (.more :: .commaMore :: .stop :: st) _ := ihe _
      _ = run d (.stop :: st) _ := hs.stop_expression
      _ = run d (.declarations :: st) _ := ihs st
  | blockStatement hb ih => exact fun _ st => (run_block hb.kind_of_block).2.trans (ih _)
  | exprStatement ho hk _ hs ihe ihs =>
    intro hf st
    calc run d (.declarations :: st) _
      _ = run d (.operand :: .more :: .commaMore :: .stop :: st) _ := run_declarations hk hf ho
      _ = run d (.more :: .commaMore :: .stop :: st) _ := ihe _
      _ = run d (.stop :: st) _ := hs.stop_expression
      _ = run d (.declarations :: st) _ := ihs st
  -- declarations
  | function he ha h hn _ _ ihp ihb =>
    intro st
    calc run d (.declarations :: st) _
      _ = run d (.declarations :: st) _ := he.run_declarations (.inl rfl)
      _ = run d (.declarations :: st) _ := ha.run_declarations (.inr rfl)
      _ = run d (.token .symbol :: Awaited.signature ++
          (Awaited.block d ++ .declarations :: st)) _ := h.run_eq (by cases d <;> rfl)
      _ = run d (Awaited.signature ++ (Awaited.block d ++ .declarations :: st)) _ :=
        hn.run_token nofun
      _ = run d (Awaited.block d ++ .declarations :: st) _ := ihp _
      _ = run d (.declarations :: st) _ := ihb _
  | var he h hk hn _ hs ih =>
    intro st
    calc run d (.declarations :: st) _
      _ = run d (.varTarget :: .stop :: st) _ := run_variable he h hk
      _ = run d (.varValue :: .stop :: st) _ := hn.run_eq rfl
      _ = run d (.stop :: st) _ := hs.stop_varValue
      _ = run d (.declarations :: st) _ := ih st
  | varValue he h hk hn ha _ hs ihv ihs =>
    intro st
    calc run d (.declarations :: st) _
      _ = run d (.varTarget :: .stop :: st) _ := run_variable he h hk
      _ = run d (.varValue :: .stop :: st) _ := hn.run_eq rfl
      _ = run d (.operand :: .more :: .stop :: st) _ := ha.run_eq rfl
      _ = run d (.more :: .stop :: st) _ := ihv _
      _ = run d (.stop :: st) _ := hs.stop_more
      _ = run d (.declarations :: st) _ := ihs st
  | vars he h hk ho _ _ hc ha _ hs ihn ihv ihs =>
    intro st
    calc run d (.declarations :: st) _
      _ = run d (.varTarget :: .stop :: st) _ := run_variable he h hk
      _ = run d (.names :: .token (.punct .rbrack) :: .token .assign :: .operand :: .more ::
          .stop :: st) _ := ho.run_eq rfl
      _ = run d (.token (.punct .rbrack) :: .token .assign :: .operand :: .more :: .stop :: st) _ :=
        ihn _
      _ = run d (.token .assign :: .operand :: .more :: .stop :: st) _ := hc.run_token nofun
      _ = run d (.operand :: .more :: .stop :: st) _ := ha.run_token nofun
      _ = run d (.more :: .stop :: st) _ := ihv _
      _ = run d (.stop :: st) _ := hs.stop_more
      _ = run d (.declarations :: st) _ := ihs st
  | statement _ _ hf _ _ ih => exact ih hf
  | declarationsEnd _ =>
    intro hclose st
    rw [run_flush]
    exact run_closed (by simpa using hclose)
  | declarationsMore _ _ ihx ih =>
    intro hclose st
    calc run d (.declarations :: st) _ = run d (.declarations :: st) _ := (run_flush _ _).symm
      _ = run d (.declarations :: st) _ := ihx st
      _ = run d st _ := ih hclose st
  -- imports
  | importWhole h ha hn hf hp =>
    intro st
    calc run d (.imported :: .token (.keyword .fromKw) :: .token .string :: st) _
      _ = run d (.token (.keyword .asKw) :: .token .symbol :: .token (.keyword .fromKw) ::
          .token .string :: st) _ := h.run_eq rfl
      _ = run d (.token .symbol :: .token (.keyword .fromKw) :: .token .string :: st) _ :=
        ha.run_token nofun
      _ = run d (.token (.keyword .fromKw) :: .token .string :: st) _ := hn.run_token nofun
      _ = run d (.token .string :: st) _ := hf.run_token nofun
      _ = run d st _ := hp.run_token nofun
  | importNames h _ hc hf hp ihn =>
    intro st
    calc run d (.imported :: .token (.keyword .fromKw) :: .token .string :: st) _
      _ = run d (.names :: .token (.punct .rbrace) :: .token (.keyword .fromKw) ::
          .token .string :: st) _ := h.run_eq rfl
      _ = run d (.token (.punct .rbrace) :: .token (.keyword .fromKw) :: .token .string :: st) _ :=
        ihn _
      _ = run d (.token (.keyword .fromKw) :: .token .string :: st) _ := hc.run_token nofun
      _ = run d (.token .string :: st) _ := hf.run_token nofun
      _ = run d st _ := hp.run_token nofun
  | importsNone _ => exact fun st => rfl
  | importsMore h _ _ _ ihi ihs ih =>
    intro st
    calc run d (.declarations :: st) _
      _ = run d (.imported :: .token (.keyword .fromKw) :: .token .string :: .stop :: st) _ :=
        h.run_eq (by cases d <;> rfl)
      _ = run d (.stop :: st) _ := ihi _
      _ = run d (.declarations :: st) _ := ihs st
      _ = run d (.declarations :: st) _ := ih st

/-! ## Whole files -/

/-- What is awaited at the start of a file. -/
def Awaited.file : List Awaited :=
  [.declarations, .finished]

/-- A module line is passed like a declaration. -/
theorem ModuleLine.moves {d : Dialect} {S S' : Tape} {m : Option String}
    (h : ModuleLine d S m S') : run d file S = run d file S' := by
  cases h with
  | none _ => rfl
  | some h hn hs =>
    calc run d file _ = run d [.token .symbol, .stop, .finished] _ :=
          h.run_eq (by cases d <;> rfl)
      _ = run d [.stop, .finished] _ := hn.run_token nofun
      _ = run d file _ := hs.moves _

/-- The coarse reading accepts what the grammar derives: `run` is true of the tape of a file. -/
theorem ReadsProgram.accepts {d : Dialect} {S : Tape} {trailer : Option String} {p : Program}
    (h : ReadsProgram d S trailer p) : run d file S = true := by
  cases h with
  | @mk S₁ S₂ S₃ S₄ _ _ _ _ _ hm hcs his hb he =>
    subst he
    have himports : run d file S₁ = run d file S₂ := by
      cases hcs with
      | taken _ => exact (run_flush _ _).symm
      | kept _ => rfl
    calc run d file S = run d file S.flush := (run_flush _ _).symm
      _ = run d file S₁ := hm.moves
      _ = run d file S₂ := himports
      _ = run d file S₃ := his.moves _
      _ = run d [.finished] [.token .eof ""] := hb.moves rfl _
      _ = true := rfl

/-! ## Where accepted tapes may part -/

section Part

variable {d : Dialect} {st : List Awaited}

/-- What welcomes an assignment neither welcomes a regular expression nor gives way to one. This
is why `skips` makes an exception of `regexp`. -/
theorem Awaited.take_regexp_of_take {w : Awaited} {ws : List Awaited}
    (h : w.take d .assign = some ws) : w.take d .regexp = none ∧ w.skips .regexp = false := by
  cases w with
  | token k =>
    rw [take] at h
    split at h
    · next hk => exact ⟨by simp [take, ← hk.1], rfl⟩
    · cases h
  | _ => cases d <;> first | (cases h; done) | exact ⟨rfl, rfl⟩

/-- What gives way to an assignment does not welcome a regular expression. This is why `skips`
makes an exception of `assign`. -/
theorem Awaited.take_regexp_of_skips {w : Awaited} (h : w.skips .assign = true) :
    w.take d .regexp = none := by
  cases w <;> first | rfl | cases h

/-- The two lemmas before this one, along the stack: where `advance` takes an assignment, it
takes no regular expression. -/
theorem Awaited.advance_regexp {st' : List Awaited} (h : advance d st .assign = some st') :
    advance d st .regexp = none := by
  induction st with
  | nil => rfl
  | cons w st ih =>
    rw [advance] at h ⊢
    cases htake : w.take d .assign with
    | some ws =>
      have ⟨hnone, hskips⟩ := take_regexp_of_take htake
      simp [hnone, hskips]
    | none =>
      simp only [htake] at h
      split at h
      · next hskips =>
        simp [take_regexp_of_skips hskips, ih h]
      · cases h

/-- After the same pieces, an assignment and a regular expression are never both accepted by
`run`. -/
theorem not_accepts_regexp {P S S' : Tape} {text text' : String}
    (h : run d st (P ++ .token .assign text :: S) = true) :
    run d st (P ++ .token .regexp text' :: S') = false := by
  induction P generalizing st with
  | nil =>
    rw [List.nil_append, run] at h ⊢
    split at h
    · next st' hadv => rw [advance_regexp hadv]
    · cases h
  | cons p P ih =>
    cases p with
    | comment c => exact ih h
    | token k t =>
      rw [List.cons_append, run] at h ⊢
      split at h
      · exact ih h
      · cases h

/-- After a semicolon `advance` welcomes no semicolon. -/
theorem Awaited.advance_semicolon {st' : List Awaited}
    (h : advance d st (.punct .semicolon) = some st') :
    advance d st' (.punct .semicolon) = none := by
  induction st with
  | nil => cases h
  | cons w st ih =>
    rw [advance] at h
    have htake : ∀ ws, w.take d (.punct .semicolon) = some ws → ws = [.declarations] := by
      intro ws hws
      cases w with
      | token k => simp [take] at hws
      | stop => exact (Option.some.inj hws).symm
      | _ => cases d <;> cases hws
    split at h
    · next ws hws =>
      cases htake ws hws
      cases h
      cases d <;> rfl
    · split at h
      · exact ih h
      · cases h

/-- The first token of a tape that `run` accepts is welcome. -/
theorem Awaited.isSome_advance {S : Tape} (h : run d st S = true) :
    (advance d st S.kind).isSome = true := by
  induction S with
  | nil => exact h
  | cons p S ih =>
    cases p with
    | comment c => exact ih h
    | token k t =>
      rw [run] at h
      split at h
      · next st' hadv => exact Option.isSome_iff_exists.2 ⟨st', hadv⟩
      · cases h

/-- A tape that `run` accepts has no two semicolons one after the other. -/
theorem not_accepts_semicolons {S : Tape} (h : run d st S = true) :
    S.words.IsChain fun w w' => w.1 = .punct .semicolon → w'.1 ≠ .punct .semicolon := by
  induction S generalizing st with
  | nil => exact .nil
  | cons p S ih =>
    cases p with
    | comment c => exact ih h
    | token k t =>
      rw [run] at h
      split at h
      · next st' hadv =>
        refine List.isChain_cons.2 ⟨?_, ih h⟩
        rintro w hw rfl hk
        have hwelcome := isSome_advance h
        rw [Tape.kind_of_head? hw, hk, advance_semicolon hadv] at hwelcome
        cases hwelcome
      · cases h

end Part

end Diglot

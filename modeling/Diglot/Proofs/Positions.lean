import Diglot.Proofs.Lossless
import Mathlib.Data.List.DropRight

/-!
# Places are exact

The lexer does not look for line feeds in every token: one of a kind that cannot span lines moves
the position along the line. So the place of a token is the true one because the scans of these
kinds take no line feed, and because what one token adds to the position is what its characters add.

- `Position.line_advance`, `Position.column_start_advance`: positions are counts of characters.
- `Lexeme.Keeps`: a scan takes only characters of a class.
- `Lexeme.oneLine_rules`: the rules for kinds that do not span lines take no line feed.
- `Lexer.afterCalls`: the lexer after calls that do not all see the same.
- `Lexer.Placed`: a lexer that stands where the characters end that it has read.
- `Lexer.position_exact`: the place of every token, however it is asked for.
-/

namespace Diglot

open Lexeme

/-! ## Positions as counts -/

namespace Position

theorem advance_concat (p : Position) (cs : List Char) (c : Char) :
    p.advance (cs ++ [c]) = (p.advance cs).step c := by
  rw [advance_append]
  rfl

/-- A text adds its line feeds to the line: `advance` counts them. -/
theorem line_advance (p : Position) (cs : List Char) :
    (p.advance cs).line = p.line + cs.count '\n' := by
  induction cs using List.reverseRecOn with
  | nil => rfl
  | append_singleton cs c ih =>
    rw [advance_concat, step, List.count_append]
    by_cases hc : c = '\n'
    · subst hc
      simp [ih, Nat.add_assoc]
    · simp [ih, hc]

/-- From `start`, the column tells how many characters stand on the last line. -/
theorem column_start_advance (cs : List Char) :
    (start.advance cs).column = 1 + (cs.rtakeWhile (· ≠ '\n')).length := by
  induction cs using List.reverseRecOn with
  | nil => rfl
  | append_singleton cs c ih =>
    rw [advance_concat, step]
    by_cases hc : c = '\n'
    · rw [if_pos hc, List.rtakeWhile_concat_neg _ _ _ (by simp [hc])]
      rfl
    · rw [if_neg hc, List.rtakeWhile_concat_pos _ _ _ (by simp [hc]), List.length_append, ih]
      rfl

end Position

/-! ## Scans that stay on their line -/

namespace Lexeme

/-- A `Scan` takes only characters of a class. -/
def Keeps (p : Char → Bool) (scan : Scan) : Prop :=
  ∀ (cs : List Char) (c : Char), c ∈ cs.take (scan cs) → p c = true

section Keeps

variable {p : Char → Bool} {scan : Scan}

/-- A scan that finds nothing takes nothing, so `Keeps` is to be shown of what is found. -/
theorem keeps_of_pos (h : ∀ cs, 0 < scan cs → ∀ c ∈ cs.take (scan cs), p c = true) :
    Keeps p scan := by
  intro cs c hc
  refine h cs (Nat.pos_of_ne_zero fun hzero => ?_) c hc
  simp [hzero] at hc

/-- A text that a scan takes all of has only characters of the class that it `Keeps`. -/
theorem Keeps.forall_mem {text : String} (h : Keeps p scan)
    (htext : scan text.toList = text.length) : ∀ c ∈ text.toList, p c = true := by
  intro c hc
  refine h text.toList c ?_
  rwa [htext, ← String.length_toList, List.take_length]

theorem keeps_run (p : Char → Bool) : Keeps p (run p) :=
  forall_take_run p

/-- A scan for a `fixed` spelling takes characters of the spelling; `keeps_word` is the same for
words. -/
theorem keeps_fixed {spelling : String} (h : spelling.toList.all p = true) :
    Keeps p (fixed spelling) := by
  refine keeps_of_pos fun cs hpos c hc => List.all_eq_true.1 h c ?_
  rwa [← (take_fixed hpos).2, String.toList_ofList]

theorem keeps_word {spelling : String} (h : spelling.toList.all p = true) :
    Keeps p (word spelling) := by
  refine keeps_of_pos fun cs hpos c hc => List.all_eq_true.1 h c ?_
  rwa [← (take_word hpos).2, String.toList_ofList]

end Keeps

/-- What `regexpBody` takes stays on its line. -/
theorem isBreak_of_regexpBody {inClass : Bool} {cs : List Char} {n : Nat}
    (h : regexpBody inClass cs = some n) : ∀ c ∈ cs.take n, isBreak c = false := by
  fun_induction regexpBody inClass cs generalizing n with
  | case1 => cases h
  | case2 => cases h
  | case3 => cases h
  | case4 => cases h
  | case5 inClass c hb hc e cs he ih =>
    obtain ⟨m, hm, rfl⟩ := Option.map_eq_some_iff.1 h
    simpa [hb, he] using ih hm
  | case6 inClass c cs hb =>
    obtain rfl : 1 = n := Option.some.inj h
    simpa using hb
  | case7 inClass c cs hb hc hslash ih =>
    obtain ⟨m, hm, rfl⟩ := Option.map_eq_some_iff.1 h
    simpa [hb] using ih hm

/-- A regular expression stays on its line: its flags are letters. -/
theorem keeps_regexp : Keeps (fun c => !isBreak c) regexp := by
  refine keeps_of_pos fun cs hpos => ?_
  obtain ⟨c, tail, n, rfl, hc, hbody⟩ := exists_of_regexp hpos
  have hflag : ∀ f, isFlag f = true → isBreak f = false := by
    intro f hf
    simp only [isFlag, Bool.or_eq_true, beq_iff_eq] at hf
    rcases hf with ((rfl | rfl) | rfl) | rfl <;> decide
  rw [regexp_of_regexpBody hc hbody, Nat.add_assoc, Nat.add_comm 1, List.take_succ_cons,
    List.take_add]
  intro e he
  rcases List.mem_cons.1 he with rfl | he
  · decide
  · rcases List.mem_append.1 he with he | he
    · simp [isBreak_of_regexpBody hbody e he]
    · simp [hflag e (keeps_run isFlag _ e he)]

/-- The characters of numbers, signs of an `exponent` included. -/
def isNumberChar (c : Char) : Bool :=
  c.isDigit || c == '.' || c == 'e' || c == 'E' || c == '+' || c == '-'

theorem isNumberChar_of_isDigit {c : Char} (h : c.isDigit = true) : isNumberChar c = true := by
  simp [isNumberChar, h]

theorem keeps_exponent : Keeps isNumberChar exponent := by
  refine keeps_of_pos fun cs hpos => ?_
  cases cs with
  | nil => simp [exponent] at hpos
  | cons e cs =>
    cases he : e == 'e' || e == 'E' with
    | false => simp [exponent, he] at hpos
    | true =>
      rw [exponent_cons he] at hpos ⊢
      split at hpos
      · exact absurd hpos (Nat.lt_irrefl 0)
      next hdigits =>
      rw [if_neg hdigits, Nat.add_assoc, Nat.add_comm 1, List.take_succ_cons, List.take_add]
      intro c hc
      -- the letter, the sign and the digits are three cases
      rcases List.mem_cons.1 hc with rfl | hc
      · simp only [Bool.or_eq_true, beq_iff_eq] at he
        rcases he with rfl | rfl <;> decide
      rcases List.mem_append.1 hc with hc | hc
      · -- the sign, if there is one
        unfold signLength at hc
        split at hc
        · next hsign =>
          cases cs with
          | nil => simp at hc
          | cons s cs =>
            obtain rfl : c = s := by simpa using hc
            simp only [List.head?_cons, Option.some.injEq] at hsign
            rcases hsign with rfl | rfl <;> decide
        · simp at hc
      · exact isNumberChar_of_isDigit (keeps_run Char.isDigit _ c hc)

theorem keeps_flonum : Keeps isNumberChar flonum := by
  refine keeps_of_pos fun cs hpos => ?_
  obtain ⟨whole, fraction, tail, rfl, hw, hf, hwhole, hfraction, htail⟩ := exists_of_flonum hpos
  have harith : whole.length + 1 + fraction.length + exponent tail
      = whole.length + (fraction.length + exponent tail + 1) := by omega
  rw [flonum_append hw hf hwhole hfraction htail, harith, List.take_length_add_append,
    List.take_succ_cons, List.take_length_add_append]
  intro c hc
  simp only [List.mem_append, List.mem_cons] at hc
  rcases hc with hc | rfl | hc | hc
  · exact isNumberChar_of_isDigit (hwhole c hc)
  · decide
  · exact isNumberChar_of_isDigit (hfraction c hc)
  · exact keeps_exponent tail c hc

/-- Tokens of a rule whose kind does not span lines, as `TokenKind.spansLines` tells, hold no
line feed. -/
def Rule.OneLine (r : Rule) : Prop :=
  r.kind.spansLines = false → Keeps (· != '\n') r.scan

theorem Rule.OneLine.of_spansLines {r : Rule} (h : r.kind.spansLines = true) : r.OneLine := by
  intro hfalse
  rw [h] at hfalse
  cases hfalse

/-- A scan that `Keeps` a class without the line feed makes a rule that is `OneLine`. -/
theorem Keeps.oneLine {k : TokenKind} {p : Char → Bool} {scan : Scan} (h : Keeps p scan)
    (hp : p '\n' = false) : (⟨k, scan⟩ : Rule).OneLine := by
  intro _ cs c hc
  have hpc := h cs c hc
  rw [bne_iff_ne]
  rintro rfl
  rw [hp] at hpc
  cases hpc

theorem oneLine_punct (p : Punct) : (Rule.punct p).OneLine :=
  fun _ => keeps_fixed (by cases p <;> decide)

theorem oneLine_keyword (k : Keyword) : (Rule.keyword k).OneLine :=
  fun _ => keeps_word (by cases k <;> decide)

theorem keeps_restOfLine : Keeps (fun c => !isBreak c) restOfLine :=
  keeps_run _

theorem keeps_lineComment : Keeps (fun c => !isBreak c) lineComment := by
  intro cs c hc
  unfold lineComment at hc
  split at hc
  · exact keeps_restOfLine cs c hc
  · simp at hc

/-- A string that is not closed ends with its line. -/
theorem keeps_badString : Keeps (fun c => !isBreak c) badString := by
  intro cs c hc
  unfold badString at hc
  split at hc
  · simp at hc
  · split at hc
    · exact keeps_restOfLine _ c hc
    · simp at hc

theorem keeps_symbol : Keeps isWordChar symbol := by
  intro cs c hc
  unfold symbol at hc
  split at hc
  · simp at hc
  · split at hc
    · exact keeps_run isWordChar _ c hc
    · simp at hc

theorem keeps_assign : Keeps (fun c => c == '=' || isCompound c) assign := by
  intro cs c hc
  unfold assign at hc
  split at hc
  · obtain rfl : c = '=' := by simpa using hc
    rfl
  · next s tail _ =>
    split at hc
    · next hs =>
      rcases (by simpa using hc : c = s ∨ c = '=') with rfl | rfl
      · simp [hs]
      · rfl
    · simp at hc
  · simp at hc

/-- Every one of the `rules` is `OneLine`: kinds that are not searched for line feeds have none
to be found. -/
theorem oneLine_rules (d : Dialect) : ∀ r ∈ rules d, r.OneLine := by
  have hearly : ∀ r ∈ earlyRules, r.OneLine := by
    simp only [earlyRules, List.forall_mem_cons, List.not_mem_nil, false_implies, implies_true,
      and_true, oneLine_punct, true_and]
    exact ⟨.of_spansLines rfl, .of_spansLines rfl, (keeps_run isSpace).oneLine rfl,
      keeps_lineComment.oneLine rfl, .of_spansLines rfl, keeps_regexp.oneLine rfl,
      .of_spansLines rfl, keeps_badString.oneLine rfl, keeps_assign.oneLine rfl,
      fun _ => keeps_word (by decide), fun _ => keeps_word (by decide)⟩
  -- numbers and names have no line feeds among their characters
  have hlate : ∀ r ∈ lateRules, r.OneLine := by
    simp only [lateRules, List.forall_mem_cons, List.not_mem_nil, false_implies, implies_true,
      and_true, oneLine_punct]
    exact ⟨keeps_flonum.oneLine rfl, keeps_symbol.oneLine rfl, (keeps_run Char.isDigit).oneLine rfl⟩
  intro r hr
  simp only [rules, List.mem_append, List.mem_map] at hr
  rcases hr with (hr | ⟨k, -, rfl⟩) | hr
  · exact hearly r hr
  · exact oneLine_keyword k
  · exact hlate r hr

/-- A line feed is found by a rule of its own, so `classify` never falls back on `unknown` for
it. -/
theorem classify_newline (d : Dialect) (cs : List Char) :
    classify d ('\n' :: cs) = (.newline, 1) := by
  cases d <;> rfl

/-- The first token of a text holds no line feed unless its kind is one that `spansLines`. -/
theorem newline_not_mem_classify (d : Dialect) {cs : List Char}
    (h : (classify d cs).1.spansLines = false) : '\n' ∉ cs.take (classify d cs).2 := by
  unfold classify at h ⊢
  cases hfind : (rules d).findSome? fun r => r.find? cs with
  | none =>
    -- a character that no rule knows is not a line feed, which one of them knows
    cases cs with
    | nil => simp
    | cons c cs =>
      intro hmem
      obtain rfl : '\n' = c := by simpa using hmem
      have hclass := classify_newline d cs
      rw [classify, hfind] at hclass
      cases hclass
  | some kn =>
    obtain ⟨r, hr, hfound⟩ := List.exists_of_findSome?_eq_some hfind
    rw [hfind] at h
    have hpos : 0 < r.scan cs := by
      refine Nat.pos_of_ne_zero fun hzero => ?_
      rw [Rule.find?_eq_none_iff.2 hzero] at hfound
      cases hfound
    rw [Rule.find?_of_pos hpos] at hfound
    obtain rfl := Option.some.inj hfound
    exact fun hmem => absurd (oneLine_rules d r hr h cs '\n' hmem) (by decide)

end Lexeme

/-! ## The place of a token -/

namespace Lexer

/-- The lexer after some calls of `next`, each of which sees what it is told to see. -/
def afterCalls (vs : List Visibility) (l : Lexer) : Lexer :=
  vs.foldl (fun l v => (l.next v).2) l

/-- A lexer that has read the characters `before` of a text, and stands where they end. -/
structure Placed (text before : List Char) (l : Lexer) : Prop where
  split : text = before ++ l.rest
  offset : l.loc.offset = (String.ofList before).utf8ByteSize
  position : l.loc.toPosition = Position.start.advance before

variable {text before : List Char} {l l' : Lexer} {t : Token}

/-- A lexer that has read nothing is `Placed` at the start. -/
theorem placed_ofText (d : Dialect) (file text : String) :
    (ofText d file text).Placed text.toList [] where
  split := rfl
  offset := rfl
  position := rfl

/-- A token moves the position by its characters, whether they are searched or not, by
`newline_not_mem_classify`. -/
theorem Step.position (h : l.Step t l') :
    l'.loc.toPosition = l.loc.toPosition.advance t.text.toList := by
  have hne : l.rest ≠ [] := by simp [h.rest, h.text]
  have htext : t.text.toList = l.rest.take (classify l.dialect l.rest).2 := by
    rw [h.found, h.rest, List.take_left' (String.length_toList ..)]
  have hloc : l'.loc = l.loc.after t.kind t.text := by
    have hscan := h.scan
    simp only [Lexer.scan, List.isEmpty_iff, hne, if_false, Prod.mk.injEq] at hscan
    rw [← hscan.2, ← hscan.1]
  rw [hloc, Loc.after]
  -- a token that is not searched holds no line feed, so it moves the column alone
  cases hk : t.kind.spansLines with
  | true => rfl
  | false =>
    have hline : '\n' ∉ t.text.toList := by
      rw [htext]
      apply newline_not_mem_classify
      rw [h.found]
      exact hk
    rw [Position.advance_of_not_mem hline, String.length_toList]
    rfl

/-- One step of a lexer keeps it `Placed`, past the characters of the token. -/
theorem Placed.step (h : l.Placed text before) (hstep : l.Step t l') :
    l'.Placed text (before ++ t.text.toList) where
  split := by rw [h.split, hstep.rest, List.append_assoc]
  offset := by
    rw [hstep.offset, h.offset, String.ofList_append, String.ofList_toList,
      String.utf8ByteSize_append]
  position := by rw [hstep.position, h.position, Position.advance_append]

/-- A `Token` stands in a text after the characters `before`. -/
structure Stands (text before : List Char) (t : Token) : Prop where
  split : ∃ after, text = before ++ (t.text.toList ++ after)
  offset : t.loc.offset = (String.ofList before).utf8ByteSize
  position : t.loc.toPosition = Position.start.advance before

/-- What a call gives `Stands` where the lexer has come to, past what was hidden. -/
theorem Placed.next (v : Visibility) (h : l.Placed text before) :
    ∃ passed, Stands text passed (l.next v).1 ∧
      (l.next v).2.Placed text (passed ++ (l.next v).1.text.toList) := by
  fun_induction Lexer.next v l generalizing before with
  | case1 l hidden ih =>
    have hne : l.rest ≠ [] := by
      apply rest_ne_nil_of_kind_scan
      intro heof
      simp [heof, Visibility.hides, TokenKind.isWhitespace, TokenKind.isComment] at hidden
    exact ih (h.step (scan_step hne))
  -- the token is given: it stands where the lexer does
  | case2 l _ =>
    by_cases hnil : l.rest = []
    · rw [scan_of_rest_eq_nil hnil]
      refine ⟨before, ⟨⟨[], ?_⟩, h.offset, h.position⟩, ?_⟩
      · simpa [stop, hnil] using h.split
      · simpa [stop] using h
    · have hstep := scan_step hnil
      refine ⟨before, ⟨⟨l.scan.2.rest, ?_⟩, ?_, ?_⟩, h.step hstep⟩
      · rw [h.split, hstep.rest]
      · rw [hstep.loc, h.offset]
      · rw [hstep.loc, h.position]

/-- Calls leave a lexer `Placed`: `Placed.next` for each of them. -/
theorem Placed.afterCalls (vs : List Visibility) (h : l.Placed text before) :
    ∃ passed, (l.afterCalls vs).Placed text passed := by
  induction vs generalizing l before with
  | nil => exact ⟨before, h⟩
  | cons v vs ih =>
    obtain ⟨passed, -, hnext⟩ := h.next v
    exact ih hnext

/-- **Places are exact**: whatever calls have been made, and whatever the next one sees, the token
that it gives is in the text at its offset, its line counts the line feeds before it, and its column
the characters after the last of them. So both numbers are at most one more than the length of the
text, and those of a text of fewer than `2 ^ 32 - 1` characters fit into 32 bits. -/
theorem position_exact (d : Dialect) (file text : String) (vs : List Visibility) (v : Visibility) :
    ∃ (t : Token) (before after : String),
      (((ofText d file text).afterCalls vs).next v).1 = t ∧
      text = before ++ t.text ++ after ∧
      t.loc.offset = before.utf8ByteSize ∧
      t.loc.line = 1 + before.toList.count '\n' ∧
      t.loc.column = 1 + (before.toList.rtakeWhile (· ≠ '\n')).length ∧
      t.loc.line ≤ text.length + 1 ∧ t.loc.column ≤ text.length + 1 := by
  obtain ⟨before, hplaced⟩ := (placed_ofText d file text).afterCalls vs
  obtain ⟨passed, ⟨⟨after, hsplit⟩, hoffset, hposition⟩, -⟩ := hplaced.next v
  generalize (((ofText d file text).afterCalls vs).next v).1 = t at hsplit hoffset hposition
  have hline : t.loc.line = 1 + passed.count '\n' := by
    rw [hposition, Position.line_advance]
    rfl
  have hcolumn : t.loc.column = 1 + (passed.rtakeWhile (· ≠ '\n')).length := by
    rw [hposition, Position.column_start_advance]
  -- what has been passed is a part of the text
  have hlength : passed.length ≤ text.length := by
    rw [← String.length_toList, hsplit, List.length_append]
    exact Nat.le_add_right _ _
  have hfeeds : passed.count '\n' ≤ passed.length := List.count_le_length
  have hlast : (passed.rtakeWhile (· ≠ '\n')).length ≤ passed.length :=
    (List.rtakeWhile_suffix _ passed).length_le
  refine ⟨t, .ofList passed, .ofList after, rfl, ?_, hoffset, ?_, ?_, ?_, ?_⟩
  · rw [← String.toList_inj, hsplit]
    simp
  · rw [hline, String.toList_ofList]
  · rw [hcolumn, String.toList_ofList]
  · omega
  · omega

end Lexer

end Diglot

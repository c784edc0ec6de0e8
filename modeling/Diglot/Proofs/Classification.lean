import Diglot.Proofs.Genuine
import Diglot.Proofs.Scanning

/-!
# The first token of a text

Which rule decides the first token of a text is told by its first character, up to the reserved
words and the numbers with a point. From this two things follow: a token that the lexer yields is
genuine, and a genuine text is read as one token of its kind before everything that does not prolong
it.

- `classify_word`, `classify_digit`: the first token of a text that begins with a word or a number.
- `genuine_classify`: the first token of a text is genuine.
- `classify_word_append`, `classify_fixnum`, `classify_string_append` and their companions: a
  genuine text is the first token before a boundary.
-/

namespace Diglot.Lexeme

variable {d : Dialect} {c : Char} {cs : List Char}

/-! ## Rules that do not apply -/

/-- A rule finds nothing exactly if its `scan` takes nothing. -/
@[simp] theorem Rule.find?_eq_none_iff {r : Rule} {cs : List Char} :
    r.find? cs = none ↔ r.scan cs = 0 := by
  unfold find?
  split <;> simp_all

theorem Rule.find?_of_pos {r : Rule} {cs : List Char} (h : 0 < r.scan cs) :
    r.find? cs = some (r.kind, r.scan cs) := by
  unfold find?
  split
  · omega
  · next n hn => rw [hn]

/-- What a rule finds is its kind and what its `scan` takes. -/
theorem Rule.find?_eq_some_iff {r : Rule} {cs : List Char} {found : TokenKind × Nat} :
    r.find? cs = some found ↔ 0 < r.scan cs ∧ found = (r.kind, r.scan cs) := by
  constructor
  · intro hfind
    have hpos : 0 < r.scan cs := by
      refine Nat.pos_of_ne_zero fun hzero => ?_
      rw [find?_eq_none_iff.2 hzero] at hfind
      cases hfind
    rw [find?_of_pos hpos] at hfind
    exact ⟨hpos, (Option.some.inj hfind).symm⟩
  · rintro ⟨hpos, rfl⟩
    exact find?_of_pos hpos

/-- What holds of `earlyRules`, of `lateRules` and of every keyword holds of all `rules` but the
first. -/
theorem forall_mem_tail_rules {P : Rule → Prop} (hearly : ∀ r ∈ earlyRules.tail, P r)
    (hkeyword : ∀ k : Keyword, P (.keyword k)) (hlate : ∀ r ∈ lateRules, P r) (d : Dialect) :
    ∀ r ∈ (rules d).tail, P r := by
  intro r hr
  have hmem : r ∈ earlyRules.tail ++ d.keywords.map Rule.keyword ++ lateRules := hr
  simp only [List.mem_append, List.mem_map] at hmem
  rcases hmem with (hr | ⟨k, -, rfl⟩) | hr
  · exact hearly r hr
  · exact hkeyword k
  · exact hlate r hr

/-- No sign begins with a character of `isWordChar`. -/
theorem fixed_spelling_eq_zero (p : Punct) (hc : isWordChar c = true) :
    fixed p.spelling (c :: cs) = 0 := by
  have hhead : ∃ x xs, p.spelling.toList = x :: xs ∧ isWordChar x = false := by
    cases p <;> exact ⟨_, _, rfl, by decide⟩
  obtain ⟨x, xs, hp, hx⟩ := hhead
  have hne : (x == c) = false := by
    rw [beq_eq_false_iff_ne]
    rintro rfl
    rw [hc] at hx
    exact absurd hx (by decide)
  simp [fixed, startsWith, hp, List.isPrefixOf, hne]

/-- The rules of `earlyRules` without those for the truth values. -/
def signRules : List Rule :=
  earlyRules.take 33

theorem earlyRules_eq :
    earlyRules = signRules ++ [⟨.boolean, word "true"⟩, ⟨.boolean, word "false"⟩] :=
  rfl

/-- A character of a word is no blank. -/
theorem isSpace_of_isWordChar (hc : isWordChar c = true) : isSpace c = false := by
  cases h : isSpace c with
  | false => rfl
  | true =>
    simp only [isSpace, Bool.or_eq_true, beq_iff_eq] at h
    rcases h with (((rfl | rfl) | rfl) | rfl) | rfl <;> exact absurd hc (by decide)

theorem isQuote_of_isWordChar (hc : isWordChar c = true) : isQuote c = false := by
  cases h : isQuote c with
  | false => rfl
  | true =>
    simp only [isQuote, Bool.or_eq_true, beq_iff_eq] at h
    rcases h with (rfl | rfl) | rfl <;> exact absurd hc (by decide)

theorem isCompound_of_isWordChar (hc : isWordChar c = true) : isCompound c = false := by
  cases h : isCompound c with
  | false => rfl
  | true =>
    simp only [isCompound, Bool.or_eq_true, beq_iff_eq] at h
    rcases h with (((rfl | rfl) | rfl) | rfl) | rfl <;> exact absurd hc (by decide)

/-- None of `signRules` applies to a text that begins with a word character. -/
theorem findSome?_signRules (hc : isWordChar c = true) :
    signRules.findSome? (fun r => r.find? (c :: cs)) = none := by
  have hne : ∀ x, isWordChar x = false → x ≠ c := by
    rintro x hx rfl
    rw [hc] at hx
    exact absurd hx (by decide)
  have hslashes : startsWith "//" (c :: cs) = false := by
    simp [startsWith, List.isPrefixOf, hne '/' (by decide)]
  have hmark : startsWith "/*" (c :: cs) = false := by
    simp [startsWith, List.isPrefixOf, hne '/' (by decide)]
  have hnewline : newline (c :: cs) = 0 := by
    unfold newline
    split
    · next h => exact absurd (List.cons.inj h).1.symm (hne '\r' (by decide))
    · next h => exact absurd (List.cons.inj h).1.symm (hne '\n' (by decide))
    · rfl
  have hregexp : regexp (c :: cs) = 0 := by
    unfold regexp
    split
    · next h => exact absurd (List.cons.inj h).1.symm (hne '/' (by decide))
    · rfl
  have hassign : assign (c :: cs) = 0 := by
    unfold assign
    split
    · next h => exact absurd (List.cons.inj h).1.symm (hne '=' (by decide))
    · next h =>
      obtain ⟨rfl, -⟩ := List.cons.inj h
      simp [isCompound_of_isWordChar hc]
    · rfl
  -- the other rules are for signs, none of which begins so
  rw [List.findSome?_eq_none_iff]
  simp [signRules, earlyRules, Rule.punct, fixed_spelling_eq_zero _ hc, outputComment,
    startsTrailer, hslashes, hnewline, whitespace, run, isSpace_of_isWordChar hc, lineComment,
    blockComment, hmark, hregexp, string, badString, isQuote_of_isWordChar hc, hassign]

/-! ## Words -/

/-- The word at the start of a text, as far as `isWordChar` goes. -/
def leadingWord (cs : List Char) : String :=
  String.ofList (cs.takeWhile isWordChar)

theorem length_leadingWord (cs : List Char) : (leadingWord cs).length = run isWordChar cs := by
  simp [leadingWord, run]

/-- A rule for a word looks at the `leadingWord`. -/
theorem Rule.find?_word (k : TokenKind) {spelling : String} (hpos : 0 < spelling.length)
    (cs : List Char) : (⟨k, word spelling⟩ : Rule).find? cs
      = if leadingWord cs = spelling then some (k, spelling.length) else none := by
  have h : cs.takeWhile isWordChar = spelling.toList ↔ leadingWord cs = spelling := by
    rw [leadingWord, ← String.toList_inj, String.toList_ofList]
  by_cases hword : leadingWord cs = spelling
  · have hscan : word spelling cs = spelling.length := by
      rw [word, if_pos (h.2 hword)]
    rw [if_pos hword, find?_of_pos (by simpa only [hscan] using hpos)]
    simp only [hscan]
  · rw [if_neg hword, find?_eq_none_iff]
    simp only [word, if_neg (mt h.1 hword)]

/-- The rules for reserved words find the `leadingWord`, if it is one of them. -/
theorem findSome?_keywords (ks : List Keyword) (cs : List Char) :
    (ks.map Rule.keyword).findSome? (fun r => r.find? cs)
      = (ks.find? fun k => k.spelling == leadingWord cs).map
          fun k => (.keyword k, (leadingWord cs).length) := by
  induction ks with
  | nil => rfl
  | cons k ks ih =>
    have hpos : 0 < k.spelling.length := by
      cases k <;> decide
    rw [List.map_cons, List.findSome?_cons, List.find?_cons, Rule.keyword, Rule.find?_word _ hpos]
    by_cases h : leadingWord cs = k.spelling
    · simp [h]
    · rw [if_neg h, ih, beq_eq_false_iff_ne.2 (Ne.symm h)]

/-- What a text that begins with a word character is, from the truth values on: `signRules` are
passed over. -/
theorem classify_of_isWordChar (d : Dialect) (hc : isWordChar c = true) :
    classify d (c :: cs) =
      if leadingWord (c :: cs) = "true" ∨ leadingWord (c :: cs) = "false" then
        (.boolean, (leadingWord (c :: cs)).length)
      else
        match d.keyword? (leadingWord (c :: cs)) with
        | some k => (.keyword k, (leadingWord (c :: cs)).length)
        | none => (lateRules.findSome? fun r => r.find? (c :: cs)).getD (.unknown, 1) := by
  rw [classify, rules, earlyRules_eq, List.findSome?_append, List.findSome?_append,
    List.findSome?_append, findSome?_signRules hc, findSome?_keywords]
  simp only [List.findSome?_cons, List.findSome?_nil]
  rw [Rule.find?_word _ (by decide), Rule.find?_word _ (by decide), Dialect.keyword?]
  by_cases htrue : leadingWord (c :: cs) = "true"
  · simp [htrue]
  · by_cases hfalse : leadingWord (c :: cs) = "false"
    · simp [hfalse]
    · simp only [htrue, hfalse]
      cases d.keywords.find? fun k => k.spelling == leadingWord (c :: cs) <;> simp

/-- No word begins with a digit. -/
theorem isDigit_of_isWordStart (hc : isWordStart c = true) : c.isDigit = false := by
  have hstart : ((decide ('A'.val ≤ c.val ∧ c.val ≤ 'Z'.val) ||
      (decide ('a'.val ≤ c.val) && decide (c.val ≤ 'z'.val))) || c == '_') = true := hc
  simp only [Bool.or_eq_true, Bool.and_eq_true, decide_eq_true_eq, beq_iff_eq] at hstart
  cases h : c.isDigit with
  | false => rfl
  | true =>
    simp only [Char.isDigit, Bool.and_eq_true, decide_eq_true_eq] at h
    rcases hstart with (hupper | hlower) | rfl
    · exact absurd (UInt32.le_trans hupper.1 h.2) (by decide)
    · exact absurd (UInt32.le_trans hlower.1 h.2) (by decide)
    · exact absurd h.2 (by decide)

/-- `classify` on a text that begins with a word: by the `leadingWord` alone. -/
theorem classify_word (d : Dialect) (hc : isWordStart c = true) :
    classify d (c :: cs) =
      if leadingWord (c :: cs) = "true" ∨ leadingWord (c :: cs) = "false" then
        (.boolean, (leadingWord (c :: cs)).length)
      else
        match d.keyword? (leadingWord (c :: cs)) with
        | some k => (.keyword k, (leadingWord (c :: cs)).length)
        | none => (.symbol, (leadingWord (c :: cs)).length) := by
  have hword : isWordChar c = true := by
    simp only [isWordStart, isWordChar, Char.isAlphanum, Bool.or_eq_true] at hc ⊢
    rcases hc with hc | hc
    · exact .inl (.inl hc)
    · exact .inr hc
  have hdigit := isDigit_of_isWordStart hc
  -- no digit begins the text, so of the last rules only that for symbols applies
  have hflonum : flonum (c :: cs) = 0 := by
    simp [flonum, fixnum, run, hdigit]
  have hsymbol : symbol (c :: cs) = (leadingWord (c :: cs)).length := by
    rw [length_leadingWord, symbol, if_pos hc]
  have hpos : 0 < (leadingWord (c :: cs)).length := by
    rw [length_leadingWord]
    simp [run, hword]
  have hlate : (lateRules.findSome? fun r => r.find? (c :: cs)).getD (.unknown, 1)
      = (.symbol, (leadingWord (c :: cs)).length) := by
    rw [lateRules, List.findSome?_cons, Rule.find?_eq_none_iff.2 hflonum]
    simp only [List.findSome?_cons]
    rw [Rule.find?_of_pos (by simpa only [hsymbol] using hpos)]
    simp only [hsymbol, Option.getD_some]
  rw [classify_of_isWordChar d hword, hlate]

/-- `classify` on a text that begins with a digit: a `flonum` if there is one, or else a
`fixnum`. -/
theorem classify_digit (d : Dialect) (hc : c.isDigit = true) :
    classify d (c :: cs) =
      if flonum (c :: cs) = 0 then (.fixnum, fixnum (c :: cs))
      else (.flonum, flonum (c :: cs)) := by
  have hword := isWordChar_of_isDigit hc
  -- no word that the rules know begins with a digit
  have hne : ∀ text : String, (∃ x xs, text.toList = x :: xs ∧ x.isDigit = false) →
      leadingWord (c :: cs) ≠ text := by
    rintro text ⟨x, xs, hx, hdigit⟩ rfl
    simp only [leadingWord, List.takeWhile_cons_of_pos hword, String.toList_ofList] at hx
    obtain ⟨rfl, -⟩ := List.cons.inj hx
    rw [hc] at hdigit
    exact absurd hdigit (by decide)
  have htrue := hne "true" ⟨_, _, rfl, by decide⟩
  have hfalse := hne "false" ⟨_, _, rfl, by decide⟩
  have hkeyword : d.keyword? (leadingWord (c :: cs)) = none := by
    rw [Dialect.keyword?, List.find?_eq_none]
    intro k _
    have := hne k.spelling (by cases k <;> exact ⟨_, _, rfl, by decide⟩)
    simpa using this.symm
  rw [classify_of_isWordChar d hword, if_neg (by simp [htrue, hfalse]), hkeyword]
  have hstart : isWordStart c = false := by
    cases h : isWordStart c with
    | false => rfl
    | true => rw [isDigit_of_isWordStart h] at hc; exact absurd hc (by decide)
  have hfixnum : 0 < fixnum (c :: cs) := by
    simp [fixnum, run, hc]
  simp only [lateRules, List.findSome?_cons]
  by_cases hflonum : flonum (c :: cs) = 0
  · rw [Rule.find?_eq_none_iff.2 hflonum, if_pos hflonum,
      Rule.find?_eq_none_iff.2 (by simp [symbol, hstart]), Rule.find?_of_pos hfixnum]
    rfl
  · rw [Rule.find?_of_pos (Nat.pos_of_ne_zero hflonum), if_neg hflonum]
    rfl

/-! ## Strings, comments and regular expressions -/

/-- Where `string` finds something, that is the first token. -/
theorem classify_string (d : Dialect) (h : 0 < string cs) :
    classify d cs = (.string, string cs) := by
  cases cs with
  | nil => simp [string] at h
  | cons q cs =>
    have hq : isQuote q = true := by
      cases hq : isQuote q with
      | true => rfl
      | false => simp [string, hq] at h
    simp only [isQuote, Bool.or_eq_true, beq_iff_eq] at hq
    simp only [classify, rules, earlyRules, List.cons_append, List.findSome?_cons]
    rcases hq with (rfl | rfl) | rfl
    all_goals
      iterate 6 rw [Rule.find?_eq_none_iff.2 rfl]
      rw [Rule.find?_of_pos h]
      rfl

/-- Blanks that do not begin with a line break are one token. -/
theorem classify_whitespace (d : Dialect) (hc : isSpace c = true) (h : newline (c :: cs) = 0) :
    classify d (c :: cs) = (.whitespace, run isSpace (c :: cs)) := by
  have hout : outputComment (c :: cs) = 0 := by
    simp only [isSpace, Bool.or_eq_true, beq_iff_eq] at hc
    rcases hc with (((rfl | rfl) | rfl) | rfl) | rfl <;> rfl
  have hpos : 0 < run isSpace (c :: cs) := by
    simp [run, hc]
  simp only [classify, rules, earlyRules, List.cons_append, List.findSome?_cons]
  rw [Rule.find?_eq_none_iff.2 hout, Rule.find?_eq_none_iff.2 h, Rule.find?_of_pos hpos]
  rfl

/-- The trailer comes before all other rules. -/
theorem classify_outputComment (d : Dialect) (h : 0 < outputComment cs) :
    classify d cs = (.outputComment, outputComment cs) := by
  simp only [classify, rules, earlyRules, List.cons_append, List.findSome?_cons]
  rw [Rule.find?_of_pos h]
  rfl

/-- A line comment that is not the trailer is the first token. -/
theorem classify_lineComment (d : Dialect) (h : 0 < lineComment cs) (hout : outputComment cs = 0) :
    classify d cs = (.lineComment, lineComment cs) := by
  have hstart : startsWith "//" cs = true := by
    cases hstart : startsWith "//" cs with
    | true => rfl
    | false => simp [lineComment, hstart] at h
  obtain ⟨tail, rfl⟩ := startsWith_iff.1 hstart
  simp only [classify, rules, earlyRules, List.cons_append, List.findSome?_cons]
  rw [Rule.find?_eq_none_iff.2 hout]
  iterate 2 rw [Rule.find?_eq_none_iff.2 rfl]
  rw [Rule.find?_of_pos h]
  rfl

theorem classify_blockComment (d : Dialect) (h : 0 < blockComment cs) :
    classify d cs = (.blockComment, blockComment cs) := by
  have hstart : startsWith "/*" cs = true := by
    cases hstart : startsWith "/*" cs with
    | true => rfl
    | false => simp [blockComment, hstart] at h
  obtain ⟨tail, rfl⟩ := startsWith_iff.1 hstart
  simp only [classify, rules, earlyRules, List.cons_append, List.findSome?_cons]
  iterate 4 rw [Rule.find?_eq_none_iff.2 rfl]
  rw [Rule.find?_of_pos h]
  rfl

/-- Where `regexp` finds something and two slashes do not, that is the first token. -/
theorem classify_regexp (d : Dialect) (h : 0 < regexp cs) (hslashes : startsWith "//" cs = false) :
    classify d cs = (.regexp, regexp cs) := by
  obtain ⟨c, tail, n, rfl, hc, hbody⟩ := exists_of_regexp h
  have hslash : ('/' == c) = false := by
    simpa [startsWith, List.isPrefixOf] using hslashes
  have hstar : ('*' == c) = false := by
    rw [Bool.or_eq_false_iff, beq_eq_false_iff_ne] at hc
    exact beq_eq_false_iff_ne.2 (Ne.symm hc.2)
  have hmark : startsWith "/*" ('/' :: c :: tail) = false := by
    simp [startsWith, List.isPrefixOf, hstar]
  simp only [classify, rules, earlyRules, List.cons_append, List.findSome?_cons]
  rw [Rule.find?_eq_none_iff.2 (by simp [outputComment, startsTrailer, hslashes])]
  iterate 2 rw [Rule.find?_eq_none_iff.2 rfl]
  rw [Rule.find?_eq_none_iff.2 (by simp [lineComment, hslashes]),
    Rule.find?_eq_none_iff.2 (by simp [blockComment, hmark]), Rule.find?_of_pos h]
  rfl

/-! ## What the lexer yields is genuine -/

/-- What is known of a text from the rule that found it alone. For a word and a regular
expression this is less than `Genuine`, since earlier rules have had their say. -/
def Found (d : Dialect) (text : String) : TokenKind → Prop
  | .symbol => IsWord text
  | .regexp => text ≠ "" ∧ regexp text.toList = text.length
  | k => Genuine d text k

/-- A rule takes characters that are there, and they are `Found` for its kind. -/
def Rule.Sound (d : Dialect) (r : Rule) : Prop :=
  ∀ cs, 0 < r.scan cs →
    r.scan cs ≤ cs.length ∧ Found d (String.ofList (cs.take (r.scan cs))) r.kind

/-- A rule for a scan that `Fixes` what it finds. -/
theorem sound_of_fixes {r : Rule} {ok : List Char → Prop} (h : Fixes ok r.scan) (hok : ok [])
    (hfound : ∀ text, text ≠ "" → r.scan text.toList = text.length → Found d text r.kind) :
    r.Sound d := by
  intro cs hpos
  obtain ⟨hle, hrest⟩ := h cs hpos
  have hlen : (cs.take (r.scan cs)).length = r.scan cs := by
    rw [List.length_take, Nat.min_eq_left hle]
  refine ⟨hle, hfound _ ?_ ?_⟩
  · intro hempty
    rw [← String.toList_inj, String.toList_ofList] at hempty
    rw [hempty] at hlen
    exact absurd hlen.symm (Nat.ne_of_gt hpos)
  · have hagain := hrest [] hok
    rw [List.append_nil] at hagain
    rw [String.toList_ofList, hagain, String.length_ofList, hlen]

/-- A rule for `fixed` text finds that text. -/
theorem take_fixed {spelling : String} (h : 0 < fixed spelling cs) :
    fixed spelling cs ≤ cs.length ∧ String.ofList (cs.take (fixed spelling cs)) = spelling := by
  unfold fixed at h ⊢
  cases hstart : startsWith spelling cs with
  | false => simp [hstart] at h
  | true =>
    obtain ⟨rest, rfl⟩ := startsWith_iff.1 hstart
    rw [if_pos rfl, ← String.length_toList, List.take_left, String.ofList_toList,
      List.length_append]
    exact ⟨Nat.le_add_right _ _, rfl⟩

theorem sound_punct (d : Dialect) (p : Punct) : (Rule.punct p).Sound d := by
  intro cs hpos
  obtain ⟨hle, htext⟩ := take_fixed hpos
  exact ⟨hle, htext⟩

theorem take_word {spelling : String} (h : 0 < word spelling cs) :
    word spelling cs ≤ cs.length ∧ String.ofList (cs.take (word spelling cs)) = spelling := by
  unfold word at h ⊢
  split
  · next hword =>
    have hlen : spelling.length = run isWordChar cs := by
      rw [run, hword, String.length_toList]
    rw [hlen]
    refine ⟨run_le _ _, ?_⟩
    rw [take_run, hword, String.ofList_toList]
  · next hword => simp [hword] at h

theorem sound_keyword {k : Keyword} (hk : k ∈ d.keywords) : (Rule.keyword k).Sound d := by
  intro cs hpos
  obtain ⟨hle, htext⟩ := take_word hpos
  exact ⟨hle, hk, htext⟩

theorem sound_lineComment (d : Dialect) : (⟨.lineComment, lineComment⟩ : Rule).Sound d := by
  intro cs hpos
  obtain ⟨line, rest, rfl, hstart, hbreak, hrest⟩ := exists_of_lineComment hpos
  simp only [lineComment_append hstart hbreak hrest, List.take_left, List.length_append]
  refine ⟨Nat.le_add_right _ _, ?_, ?_⟩
  · rwa [String.toList_ofList]
  · rwa [String.toList_ofList]

/-- The rule for names finds words. -/
theorem sound_symbol (d : Dialect) : (⟨.symbol, symbol⟩ : Rule).Sound d := by
  intro cs hpos
  cases cs with
  | nil => simp [symbol] at hpos
  | cons c cs =>
    cases hc : isWordStart c with
    | false => simp [symbol, hc] at hpos
    | true =>
      have hscan : symbol (c :: cs) = run isWordChar (c :: cs) := by
        simp [symbol, hc]
      simp only [hscan]
      refine ⟨run_le _ _, ?_, ?_⟩
      · have hword : 0 < run isWordChar (c :: cs) := hscan ▸ hpos
        obtain ⟨m, hm⟩ := Nat.exists_eq_succ_of_ne_zero (Nat.ne_of_gt hword)
        rw [String.toList_ofList, hm]
        exact ⟨c, _, rfl, hc⟩
      · rw [String.toList_ofList]
        exact forall_take_run _ _

/-- The rule for numbers finds digits. -/
theorem sound_fixnum (d : Dialect) : (⟨.fixnum, fixnum⟩ : Rule).Sound d := by
  intro cs hpos
  refine ⟨run_le _ _, ?_, ?_⟩
  · intro hempty
    rw [← String.toList_inj, String.toList_ofList] at hempty
    exact take_fixnum_ne_nil (Nat.ne_of_gt hpos) hempty
  · rw [String.toList_ofList]
    exact forall_take_run _ _

/-- The rule for assignments finds spellings of assignments. -/
theorem sound_assign (d : Dialect) : (⟨.assign, assign⟩ : Rule).Sound d := by
  intro cs hpos
  simp only [assign] at hpos ⊢
  split at hpos
  · exact ⟨by simp, .assign, rfl, rfl⟩
  · next c tail hne =>
    cases hc : isCompound c with
    | false => simp [hc] at hpos
    | true =>
      refine ⟨by simp, ?_⟩
      simp only [isCompound, Bool.or_eq_true, beq_iff_eq] at hc
      rcases hc with (((rfl | rfl) | rfl) | rfl) | rfl
      · exact ⟨.subAssign, rfl, rfl⟩
      · exact ⟨.addAssign, rfl, rfl⟩
      · exact ⟨.mulAssign, rfl, rfl⟩
      · exact ⟨.divAssign, rfl, rfl⟩
      · exact ⟨.modAssign, rfl, rfl⟩
  · simp at hpos

/-- A rule whose kind allows every text needs only to take characters that are there. -/
theorem sound_of_le {r : Rule} (hk : ∀ text, Found d text r.kind)
    (h : ∀ cs, r.scan cs ≤ cs.length) : r.Sound d :=
  fun cs _ => ⟨h cs, hk _⟩

theorem newline_le (cs : List Char) : newline cs ≤ cs.length := by
  unfold newline
  split <;> simp

theorem badString_le (cs : List Char) : badString cs ≤ cs.length := by
  unfold badString
  split
  · simp
  · split
    · exact run_le _ _
    · exact Nat.zero_le _

/-- All `rules` of a dialect are `Sound`. -/
theorem sound_rules (d : Dialect) : ∀ r ∈ rules d, r.Sound d := by
  have hboolean : ∀ text : String, text = "true" ∨ text = "false" →
      (⟨.boolean, word text⟩ : Rule).Sound d := by
    intro text htext cs hpos
    obtain ⟨hle, hword⟩ := take_word hpos
    refine ⟨hle, ?_⟩
    rw [hword]
    exact htext
  -- both dialects share the first rules
  have hearly : ∀ r ∈ earlyRules, r.Sound d := by
    simp only [earlyRules, List.forall_mem_cons, List.not_mem_nil, false_implies, implies_true,
      and_true, sound_punct, true_and]
    refine ⟨sound_of_fixes fixes_outputComment ⟨lineEnd_nil, rfl, rfl⟩ fun _ hne h => ⟨hne, h⟩,
      sound_of_le (fun _ => trivial) newline_le, sound_of_le (fun _ => trivial) (run_le _),
      sound_lineComment d, sound_of_fixes fixes_blockComment trivial fun _ hne h => ⟨hne, h⟩,
      sound_of_fixes fixes_regexp trivial fun _ hne h => ⟨hne, h⟩,
      sound_of_fixes fixes_string trivial fun _ hne h => ⟨hne, h⟩,
      sound_of_le (fun _ => trivial) badString_le, sound_assign d, hboolean _ (.inl rfl),
      hboolean _ (.inr rfl)⟩
  -- the rules that take what is left
  have hlate : ∀ r ∈ lateRules, r.Sound d := by
    simp only [lateRules, List.forall_mem_cons, List.not_mem_nil, false_implies, implies_true,
      and_true, sound_punct]
    exact ⟨sound_of_fixes fixes_flonum trivial fun _ hne h => ⟨hne, h⟩, sound_symbol d,
      sound_fixnum d⟩
  intro r hr
  simp only [rules, List.mem_append, List.mem_map] at hr
  rcases hr with (hr | ⟨k, hk, rfl⟩) | hr
  · exact hearly r hr
  · exact sound_keyword hk
  · exact hlate r hr

/-- The first token of a text takes characters that are there, and they are `Found` for its
kind. -/
theorem found_classify (d : Dialect) (hcs : cs ≠ []) : (classify d cs).2 ≤ cs.length ∧
    Found d (String.ofList (cs.take (classify d cs).2)) (classify d cs).1 := by
  unfold classify
  cases h : (rules d).findSome? fun r => r.find? cs with
  | none => exact ⟨List.length_pos_iff.2 hcs, trivial⟩
  | some kn =>
    obtain ⟨r, hr, hfind⟩ := List.exists_of_findSome?_eq_some h
    have hpos : 0 < r.scan cs := by
      refine Nat.pos_of_ne_zero fun hzero => ?_
      rw [Rule.find?_eq_none_iff.2 hzero] at hfind
      simp at hfind
    rw [Rule.find?_of_pos hpos] at hfind
    obtain rfl := Option.some.inj hfind
    exact sound_rules d r hr cs hpos

/-- A text that begins with two slashes begins with a comment or the trailer. -/
theorem classify_slashes (d : Dialect) (h : startsWith "//" cs = true) :
    (classify d cs).1 = .outputComment ∨ (classify d cs).1 = .lineComment := by
  by_cases hout : outputComment cs = 0
  · have hpos : 0 < lineComment cs := by
      rw [lineComment, if_pos h]
      obtain ⟨tail, rfl⟩ := startsWith_iff.1 h
      simp [restOfLine, run, isBreak]
    rw [classify_lineComment d hpos hout]
    exact .inr rfl
  · rw [classify_outputComment d (Nat.pos_of_ne_zero hout)]
    exact .inl rfl

/-- The first token of a text is `Genuine`. -/
theorem genuine_classify (d : Dialect) (hcs : cs ≠ []) :
    Genuine d (String.ofList (cs.take (classify d cs).2)) (classify d cs).1 := by
  obtain ⟨hle, hfound⟩ := found_classify d hcs
  cases hk : (classify d cs).1 with
  | symbol =>
    rw [hk] at hfound
    obtain ⟨⟨c, tail, htext, hc⟩, -⟩ := id hfound
    -- the rules for truth values and reserved words had nothing to say
    obtain ⟨tail, rfl⟩ : ∃ tail, cs = c :: tail := by
      cases cs with
      | nil => exact absurd rfl hcs
      | cons e tail =>
        obtain ⟨n, hn⟩ := Nat.exists_eq_succ_of_ne_zero
          (Nat.ne_of_gt (classify_pos d (e :: tail)))
        rw [hn, String.toList_ofList, List.take_succ_cons] at htext
        exact ⟨tail, by rw [(List.cons.inj htext).1]⟩
    have hclass : classify d (c :: tail) = _ := classify_word d hc
    have hword : ∀ k, classify d (c :: tail) = (k, (leadingWord (c :: tail)).length) →
        String.ofList ((c :: tail).take (classify d (c :: tail)).2) = leadingWord (c :: tail) := by
      intro k hclass
      rw [hclass, length_leadingWord, take_run]
      rfl
    split at hclass
    · rw [hclass] at hk
      exact absurd hk (by simp)
    · next hboolean =>
      rw [not_or] at hboolean
      split at hclass
      · rw [hclass] at hk
        exact absurd hk (by simp)
      · next hfree =>
        rw [hword _ hclass] at hfound ⊢
        exact ⟨hfound, hboolean.1, hboolean.2, hfree⟩
  | regexp =>
    rw [hk] at hfound
    refine ⟨hfound.1, hfound.2, ?_⟩
    cases hslashes : startsWith "//" (String.ofList (cs.take (classify d cs).2)).toList with
    | false => rfl
    | true =>
      obtain ⟨tail, htail⟩ := startsWith_iff.1 hslashes
      rw [String.toList_ofList] at htail
      have hstart : startsWith "//" cs = true := by
        rw [← List.take_append_drop (classify d cs).2 cs, htail, List.append_assoc]
        exact startsWith_iff.2 ⟨_, rfl⟩
      rcases classify_slashes d hstart with h | h
      · rw [h] at hk
        exact absurd hk (by decide)
      · rw [h] at hk
        exact absurd hk (by decide)
  | _ =>
    rw [hk] at hfound
    exact hfound

/-! ## Genuine texts are read as what they are -/

section Append

variable {text : String} {rest : List Char}

/-- A word before a `Boundary` is the `leadingWord`. -/
theorem leadingWord_append (htext : ∀ c ∈ text.toList, isWordChar c = true)
    (hrest : Boundary rest) : leadingWord (text.toList ++ rest) = text := by
  have hstop : rest.takeWhile isWordChar = [] := by
    cases rest with
    | nil => rfl
    | cons c cs => simp [hrest.1]
  rw [leadingWord, List.takeWhile_append_of_pos htext, hstop, List.append_nil,
    String.ofList_toList]

/-- A word before a `Boundary` is of its `Dialect.wordKind`. -/
theorem classify_word_append (d : Dialect) (htext : IsWord text) (hrest : Boundary rest) :
    classify d (text.toList ++ rest) = (d.wordKind text, text.length) := by
  obtain ⟨⟨c, tail, hcons, hc⟩, hall⟩ := htext
  have hword := leadingWord_append hall hrest
  rw [hcons, List.cons_append] at hword ⊢
  rw [classify_word d hc, hword]
  unfold Dialect.wordKind
  split
  · rfl
  · cases d.keyword? text <;> rfl

/-- A name is a symbol. -/
theorem wordKind_of_isName (h : IsName d text) : d.wordKind text = .symbol := by
  rw [Dialect.wordKind, if_neg (by simp [h.notTrue, h.notFalse]), h.free]

theorem classify_name (h : IsName d text) (hrest : Boundary rest) :
    classify d (text.toList ++ rest) = (.symbol, text.length) := by
  rw [classify_word_append d h.word hrest, wordKind_of_isName h]

/-- Reserved words are words. -/
theorem isWord_spelling (k : Keyword) : IsWord k.spelling := by
  refine ⟨?_, ?_⟩
  · cases k <;> exact ⟨_, _, rfl, by decide⟩
  · cases k <;> exact forall_mem_of_all (by decide)

/-- A reserved word of the dialect is itself. -/
theorem wordKind_spelling : ∀ k ∈ d.keywords, d.wordKind k.spelling = .keyword k := by
  cases d <;> decide

theorem classify_keyword {k : Keyword} (hk : k ∈ d.keywords) (hrest : Boundary rest) :
    classify d (k.spelling.toList ++ rest) = (.keyword k, k.spelling.length) := by
  rw [classify_word_append d (isWord_spelling k) hrest, wordKind_spelling k hk]

theorem isWord_boolean (h : text = "true" ∨ text = "false") : IsWord text := by
  rcases h with rfl | rfl <;> exact ⟨⟨_, _, rfl, by decide⟩, forall_mem_of_all (by decide)⟩

theorem classify_boolean (d : Dialect) (h : text = "true" ∨ text = "false")
    (hrest : Boundary rest) : classify d (text.toList ++ rest) = (.boolean, text.length) := by
  rw [classify_word_append d (isWord_boolean h) hrest, Dialect.wordKind, if_pos h]

/-- A scan that `Fixes` what it finds takes a text that it takes all of, also before more. -/
theorem Fixes.append {ok : List Char → Prop} {scan : Scan} (h : Fixes ok scan) (hne : text ≠ "")
    (hscan : scan text.toList = text.length) (hok : ok rest) :
    scan (text.toList ++ rest) = text.length := by
  have hpos : 0 < scan text.toList := by
    rw [hscan, ← String.length_toList]
    exact List.length_pos_iff.2 fun hnil => hne (by rwa [← String.toList_inj])
  have hagain := (h _ hpos).2 rest hok
  rwa [hscan, ← String.length_toList, List.take_length, String.length_toList] at hagain

theorem length_pos_of_ne_empty (hne : text ≠ "") : 0 < text.length := by
  rw [← String.length_toList]
  exact List.length_pos_iff.2 fun hnil => hne (by rwa [← String.toList_inj])

/-- Digits before a `Boundary` are a number. A point would make another number of them, and is
none. -/
theorem classify_fixnum (d : Dialect) (h : Genuine d text .fixnum) (hrest : Boundary rest) :
    classify d (text.toList ++ rest) = (.fixnum, text.length) := by
  obtain ⟨hne, hdigits⟩ := h
  have hfixnum : fixnum (text.toList ++ rest) = text.length := by
    rw [fixnum, run_append hdigits, hrest.run_eq_zero fun _ => isWordChar_of_isDigit,
      String.length_toList, Nat.add_zero]
  -- a point that goes on the number has no digit after it
  have hflonum : flonum (text.toList ++ rest) = 0 := by
    simp only [flonum, hfixnum]
    refine if_pos ?_
    rw [← String.length_toList, List.getElem?_append_right (Nat.le_refl _), Nat.sub_self,
      ← List.drop_drop, List.drop_left]
    cases rest with
    | nil => simp
    | cons c tail =>
      by_cases hpoint : c = '.'
      · have hzero : fixnum tail = 0 := run_eq_zero (hrest.2 hpoint)
        simp [hzero]
      · simp [hpoint]
  cases hcons : text.toList with
  | nil => exact absurd (by rwa [← String.toList_inj]) hne
  | cons c tail =>
    rw [hcons] at hfixnum hflonum hdigits
    rw [List.cons_append] at hfixnum hflonum ⊢
    rw [classify_digit d (hdigits c (by simp)), if_pos hflonum, hfixnum]

/-- A number with a point is one token before a `Boundary`. -/
theorem classify_flonum (d : Dialect) (h : Genuine d text .flonum) (hrest : Boundary rest) :
    classify d (text.toList ++ rest) = (.flonum, text.length) := by
  obtain ⟨hne, hscan⟩ := h
  have hagain := fixes_flonum.append hne hscan hrest
  have hpos := length_pos_of_ne_empty hne
  have hfound : 0 < flonum (text.toList ++ rest) := by omega
  obtain ⟨whole, fraction, tail, hparts, hw, -, hwhole, -⟩ := exists_of_flonum hfound
  obtain ⟨c, whole, rfl⟩ := List.exists_cons_of_ne_nil hw
  rw [hparts] at hagain ⊢
  rw [List.cons_append] at hagain ⊢
  rw [classify_digit d (hwhole c (by simp)), if_neg (by omega), hagain]

/-- A string is one token before anything. -/
theorem classify_string_append (d : Dialect) (h : Genuine d text .string) :
    classify d (text.toList ++ rest) = (.string, text.length) := by
  have hagain : string (text.toList ++ rest) = text.length := fixes_string.append h.1 h.2 trivial
  rw [classify_string d (by rw [hagain]; exact length_pos_of_ne_empty h.1), hagain]

/-- A regular expression is one token before a `Boundary`, which is no flag of it. -/
theorem classify_regexp_append (d : Dialect) (h : Genuine d text .regexp) (hrest : Boundary rest) :
    classify d (text.toList ++ rest) = (.regexp, text.length) := by
  obtain ⟨hne, hscan, hslashes⟩ := h
  have hagain := fixes_regexp.append hne hscan hrest
  have hpos := length_pos_of_ne_empty hne
  have hslashes' : startsWith "//" (text.toList ++ rest) = false := by
    have hfound : 0 < regexp text.toList := by omega
    obtain ⟨c, tail, -, hcons, -⟩ := exists_of_regexp hfound
    rw [hcons] at hslashes ⊢
    simpa [startsWith, List.isPrefixOf] using hslashes
  rw [classify_regexp d (by omega) hslashes', hagain]

theorem classify_blockComment_append (d : Dialect) (h : Genuine d text .blockComment) :
    classify d (text.toList ++ rest) = (.blockComment, text.length) := by
  have hagain : blockComment (text.toList ++ rest) = text.length :=
    fixes_blockComment.append h.1 h.2 trivial
  rw [classify_blockComment d (by rw [hagain]; exact length_pos_of_ne_empty h.1), hagain]

theorem classify_outputComment_append (d : Dialect) (h : Genuine d text .outputComment)
    (hrest : AfterTrailer rest) :
    classify d (text.toList ++ rest) = (.outputComment, text.length) := by
  have hagain := fixes_outputComment.append h.1 h.2 hrest
  rw [classify_outputComment d (by rw [hagain]; exact length_pos_of_ne_empty h.1), hagain]

end Append

end Diglot.Lexeme

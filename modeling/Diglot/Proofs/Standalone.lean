import Diglot.Proofs.Lawful

/-!
# Tokens stand alone

A token is found where the rules are tried in order on all that is left of a text. With the text cut
off after it, it is found all the same: a rule that finds something in the token finds something in
the text before the cut as well, so no earlier rule comes to its turn, and the rule that has found
the token finds all of it again. The one rule that looks to the end of the text is the one for the
trailer. It makes a trailer of a line comment with the marker, once nothing follows.

- `Rule.StableAt`: what a rule finds does not depend on what follows it.
- `stableAt_rules`: the rules but that for the trailer are so, on texts that begin with no word.
- `findSome?_take`: the first of such rules to find something finds it again.
- `classify_of_append`: the first token of a text is found again with nothing after it.
- `lexesAlone_iff`: the tokens of a text that are tokens on their own.
-/

namespace Diglot

namespace Lexeme

variable {d : Dialect} {c : Char} {cs : List Char}

/-! ## Rules that do not look ahead -/

/-- On texts that begin with `c`, a rule that finds something still does when the text is
longer, and it finds the same with nothing after it. -/
structure Rule.StableAt (c : Char) (r : Rule) : Prop where
  persists : ∀ l m, 0 < r.scan (c :: l) → 0 < r.scan (c :: (l ++ m))
  recurs : ∀ l, 0 < r.scan (c :: l) → r.scan ((c :: l).take (r.scan (c :: l))) = r.scan (c :: l)

/-- A rule that never applies at `c` is `StableAt` it. -/
theorem stableAt_of_zero {r : Rule} (h : ∀ l, r.scan (c :: l) = 0) : r.StableAt c where
  persists l _ hpos := by simp [h l] at hpos
  recurs l hpos := by simp [h l] at hpos

/-- A scan that finds its characters again before some text, as `Fixes` says, finds them before
none. -/
theorem Fixes.recurs {ok : List Char → Prop} {scan : Scan} (h : Fixes ok scan) (hok : ok [])
    (hpos : 0 < scan cs) : scan (cs.take (scan cs)) = scan cs := by
  simpa using (h cs hpos).2 [] hok

/-- A scan that finds its characters again before every text, as `Fixes` says, makes a rule that
is `StableAt` every character. -/
theorem stableAt_of_fixes {r : Rule} (h : Fixes (fun _ => True) r.scan) : r.StableAt c where
  persists l m hpos := by
    have hlong := (h _ hpos).2 ((c :: l).drop (r.scan (c :: l)) ++ m) trivial
    rw [← List.append_assoc, List.take_append_drop, List.cons_append] at hlong
    rwa [hlong]
  recurs _ hpos := h.recurs trivial hpos

/-- The rules for signs look at the characters of their spelling only. -/
theorem stableAt_punct (p : Punct) : (Rule.punct p).StableAt c where
  persists l m hpos := by
    have hfixed : 0 < fixed p.spelling (c :: l) := hpos
    have hlength : 0 < p.spelling.length := by cases p <;> decide
    unfold fixed at hfixed
    cases hstart : startsWith p.spelling (c :: l) with
    | false => simp [hstart] at hfixed
    | true =>
      obtain ⟨rest, hrest⟩ := startsWith_iff.1 hstart
      have hlong : startsWith p.spelling (c :: (l ++ m)) = true :=
        startsWith_iff.2 ⟨rest ++ m, by rw [← List.cons_append, hrest, List.append_assoc]⟩
      show 0 < fixed p.spelling _
      rwa [fixed, if_pos hlong]
  recurs l hpos := by
    have hfixed : 0 < fixed p.spelling (c :: l) := hpos
    obtain ⟨hle, htext⟩ := take_fixed hfixed
    -- what is taken is the spelling, and the spelling begins with itself
    have htake : (c :: l).take (fixed p.spelling (c :: l)) = p.spelling.toList := by
      simpa using congrArg String.toList htext
    have hlength : fixed p.spelling (c :: l) = p.spelling.length := by
      rw [← String.length_toList, ← htake, List.length_take, Nat.min_eq_left hle]
    show fixed p.spelling ((c :: l).take (fixed p.spelling (c :: l))) = fixed p.spelling (c :: l)
    rw [htake, hlength, fixed, if_pos (startsWith_iff.2 ⟨[], (List.append_nil _).symm⟩)]

/-- A line break is told by its one or two characters, also where a carriage return begins it. -/
theorem stableAt_newline : (⟨.newline, newline⟩ : Rule).StableAt c where
  persists l m hpos := by
    simp only [newline] at hpos ⊢
    split at hpos
    · next tail heq =>
      obtain ⟨rfl, rfl⟩ := List.cons.inj heq
      exact Nat.succ_pos 1
    · next tail heq =>
      obtain ⟨rfl, rfl⟩ := List.cons.inj heq
      exact Nat.succ_pos 0
    · simp at hpos
  recurs l hpos := by
    simp only [newline] at hpos ⊢
    split at hpos
    · next tail heq =>
      obtain ⟨rfl, rfl⟩ := List.cons.inj heq
      rfl
    · next tail heq =>
      obtain ⟨rfl, rfl⟩ := List.cons.inj heq
      rfl
    · simp at hpos

/-- A `run` takes its own characters again. -/
theorem run_take_run (p : Char → Bool) (cs : List Char) :
    run p (cs.take (run p cs)) = run p cs := by
  have h : run p (cs.take (run p cs) ++ []) = (cs.take (run p cs)).length + run p [] :=
    run_append (forall_take_run p cs)
  rwa [List.append_nil, List.length_take, Nat.min_eq_left (run_le p cs)] at h

theorem stableAt_whitespace : (⟨.whitespace, whitespace⟩ : Rule).StableAt c where
  persists l m hpos := by
    cases hc : isSpace c with
    | false => simp [whitespace, run, hc] at hpos
    | true => simp [whitespace, run, hc]
  recurs l _ := run_take_run isSpace (c :: l)

theorem stableAt_lineComment : (⟨.lineComment, lineComment⟩ : Rule).StableAt c where
  persists l m hpos := by
    obtain ⟨line, rest, heq, hstart, hbreak, -⟩ := exists_of_lineComment hpos
    obtain ⟨tail, rfl⟩ := startsWith_iff.1 hstart
    show 0 < lineComment (c :: (l ++ m))
    rw [← List.cons_append, heq, List.append_assoc, List.append_assoc]
    simp [lineComment, startsWith, List.isPrefixOf, restOfLine, run, isBreak]
  recurs l hpos := by
    obtain ⟨line, rest, heq, hstart, hbreak, hend⟩ := exists_of_lineComment hpos
    have halone := lineComment_append hstart hbreak lineEnd_nil
    simp only [heq, lineComment_append hstart hbreak hend, List.take_left]
    rwa [List.append_nil] at halone

/-- A regular expression needs its closing slash, and its flags end where the text does. -/
theorem stableAt_regexp : (⟨.regexp, regexp⟩ : Rule).StableAt c where
  persists l m hpos := by
    obtain ⟨e, tail, n, heq, he, hbody⟩ := exists_of_regexp hpos
    have hlong := (regexpBody_take hbody).2.2 ((e :: tail).drop n ++ m)
    rw [← List.append_assoc, List.take_append_drop] at hlong
    show 0 < regexp (c :: (l ++ m))
    rw [List.cons_append] at hlong
    rw [← List.cons_append, heq, List.cons_append, List.cons_append,
      regexp_of_regexpBody he hlong]
    omega
  recurs _ hpos := fixes_regexp.recurs trivial hpos

/-- A string that is not closed is found at its quote, and goes to the end of the line. -/
theorem stableAt_badString : (⟨.badString, badString⟩ : Rule).StableAt c where
  persists l m hpos := by
    cases hq : isQuote c with
    | false => simp [badString, hq] at hpos
    | true =>
      have hbreak : isBreak c = false := by
        simp only [isQuote, Bool.or_eq_true, beq_iff_eq] at hq
        rcases hq with (rfl | rfl) | rfl <;> decide
      simp [badString, hq, restOfLine, run, hbreak]
  recurs l hpos := by
    cases hq : isQuote c with
    | false => simp [badString, hq] at hpos
    | true =>
      have hscan : badString (c :: l) = restOfLine (c :: l) := by simp [badString, hq]
      simp only [hscan] at hpos ⊢
      -- the quote itself is taken, so the first character is still a quote
      obtain ⟨n, hn⟩ := Nat.exists_eq_succ_of_ne_zero (Nat.ne_of_gt hpos)
      have hline : restOfLine ((c :: l).take (restOfLine (c :: l))) = restOfLine (c :: l) :=
        run_take_run (fun e => !isBreak e) (c :: l)
      show badString ((c :: l).take (restOfLine (c :: l))) = restOfLine (c :: l)
      rw [hn] at hline ⊢
      rw [List.take_succ_cons] at hline ⊢
      rwa [badString, if_pos hq]

theorem stableAt_assign : (⟨.assign, assign⟩ : Rule).StableAt c where
  persists l m hpos := by
    simp only [assign] at hpos ⊢
    split at hpos
    · next heq =>
      obtain ⟨rfl, rfl⟩ := List.cons.inj heq
      exact Nat.succ_pos 0
    · next e tail hne heq =>
      obtain ⟨rfl, rfl⟩ := List.cons.inj heq
      cases hc : isCompound c with
      | false => simp [hc] at hpos
      | true => split <;> simp_all
    · simp at hpos
  recurs l hpos := by
    simp only [assign] at hpos ⊢
    split at hpos
    · next heq =>
      obtain ⟨rfl, rfl⟩ := List.cons.inj heq
      rfl
    · next e tail hne heq =>
      obtain ⟨rfl, rfl⟩ := List.cons.inj heq
      cases hc : isCompound c with
      | false => simp [hc] at hpos
      | true => simp_all
    · simp at hpos

/-! ## All rules but one -/

/-- No rule for a `word` applies to a text that begins with no word character. -/
theorem word_eq_zero (hc : isWordChar c = false) {spelling : String} (hne : spelling ≠ "")
    (l : List Char) : word spelling (c :: l) = 0 := by
  refine if_neg fun h => hne ?_
  rw [List.takeWhile_cons_of_neg (by simp [hc])] at h
  exact String.toList_inj.1 h.symm

/-- All `rules` but the first, that for the trailer, are `StableAt` what begins no word. -/
theorem stableAt_rules (hc : isWordChar c = false) : ∀ r ∈ (rules d).tail, r.StableAt c := by
  have hdigit : c.isDigit = false :=
    Bool.eq_false_iff.2 fun h => Bool.eq_false_iff.1 hc (isWordChar_of_isDigit h)
  have hstart : isWordStart c = false := by
    refine Bool.eq_false_iff.2 fun h => Bool.eq_false_iff.1 hc ?_
    simp only [isWordStart, isWordChar, Char.isAlphanum, Bool.or_eq_true] at h ⊢
    exact h.imp_left .inl
  have hearly : ∀ r ∈ earlyRules.tail, r.StableAt c := by
    simp only [earlyRules, List.tail_cons, List.forall_mem_cons, List.not_mem_nil, false_implies,
      implies_true, and_true, stableAt_punct, true_and]
    exact ⟨stableAt_newline, stableAt_whitespace, stableAt_lineComment,
      stableAt_of_fixes fixes_blockComment, stableAt_regexp, stableAt_of_fixes fixes_string,
      stableAt_badString, stableAt_assign, stableAt_of_zero (word_eq_zero hc (by decide)),
      stableAt_of_zero (word_eq_zero hc (by decide))⟩
  -- reserved words are found at word characters only
  have hkeyword : ∀ k : Keyword, (Rule.keyword k).StableAt c := fun k =>
    stableAt_of_zero (word_eq_zero hc (by cases k <;> decide))
  have hlate : ∀ r ∈ lateRules, r.StableAt c := by
    simp only [lateRules, List.forall_mem_cons, List.not_mem_nil, false_implies, implies_true,
      and_true, stableAt_punct]
    refine ⟨stableAt_of_zero fun l => ?_, stableAt_of_zero fun l => ?_,
      stableAt_of_zero fun l => ?_⟩
    · simp [flonum, fixnum, run, hdigit]
    · simp [symbol, hstart]
    · simp [fixnum, run, hdigit]
  exact forall_mem_tail_rules hearly hkeyword hlate d

/-! ## The first rule that finds something -/

/-- A rule that is `StableAt` and finds nothing finds nothing in the first characters. -/
theorem Rule.StableAt.find?_eq_none {r : Rule} (h : r.StableAt c) (hnone : r.find? (c :: cs) = none)
    (n : Nat) : r.find? (c :: cs.take n) = none := by
  rw [Rule.find?_eq_none_iff] at hnone ⊢
  refine Nat.eq_zero_of_not_pos fun hpos => ?_
  have hlong := h.persists _ (cs.drop n) hpos
  rw [List.take_append_drop, hnone] at hlong
  exact Nat.lt_irrefl 0 hlong

/-- Of rules that are `StableAt`, the first to find something finds it again with nothing after
it, and where none finds anything, none does in the first characters either. -/
theorem findSome?_take {rs : List Rule} (h : ∀ r ∈ rs, r.StableAt c) {n : Nat}
    (hn : ∀ k m, rs.findSome? (fun r => r.find? (c :: cs)) = some (k, m) → m = n + 1) :
    rs.findSome? (fun r => r.find? (c :: cs.take n))
      = rs.findSome? fun r => r.find? (c :: cs) := by
  induction rs with
  | nil => rfl
  | cons r rs ih =>
    rw [List.forall_mem_cons] at h
    simp only [List.findSome?_cons] at hn ⊢
    cases hfind : r.find? (c :: cs) with
    | none =>
      -- this rule is silent in both texts
      rw [h.1.find?_eq_none hfind]
      exact ih h.2 (by simpa [hfind] using hn)
    | some found =>
      obtain ⟨hpos, rfl⟩ := Rule.find?_eq_some_iff.1 hfind
      have hlength : r.scan (c :: cs) = n + 1 := hn _ _ (by rw [hfind])
      have hagain := h.1.recurs cs hpos
      rw [hlength, List.take_succ_cons] at hagain
      rw [Rule.find?_of_pos (by omega), hagain, hlength]

/-! ## The first token of a text -/

section First

variable {text : String} {rest : List Char} {k : TokenKind}

/-- Before a word, it is the word that `classify` finds, with the kind that `Dialect.wordKind`
gives it. -/
theorem classify_leadingWord (d : Dialect) (hc : isWordStart c = true) (cs : List Char) :
    classify d (c :: cs) =
      (d.wordKind (leadingWord (c :: cs)), (leadingWord (c :: cs)).length) := by
  rw [classify_word d hc]
  unfold Dialect.wordKind
  split
  · rfl
  · cases d.keyword? (leadingWord (c :: cs)) <;> rfl

/-- The word at the start of a text, if it is as long as another start, is that start. -/
theorem leadingWord_eq_of_length (h : (leadingWord (text.toList ++ rest)).length = text.length) :
    leadingWord (text.toList ++ rest) = text := by
  rw [length_leadingWord, ← String.length_toList] at h
  rw [leadingWord, ← take_run, h, List.take_left, String.ofList_toList]

/-- A word is found again: `classify` sees it by itself. -/
theorem classify_of_append_of_isWordStart {l : List Char} (htext : text.toList = c :: l)
    (hc : isWordStart c = true) (h : classify d (text.toList ++ rest) = (k, text.length)) :
    classify d text.toList = (k, text.length) := by
  have hfound : classify d (text.toList ++ rest) =
      (d.wordKind (leadingWord (text.toList ++ rest)),
        (leadingWord (text.toList ++ rest)).length) := by
    rw [htext, List.cons_append]
    exact classify_leadingWord d hc (l ++ rest)
  obtain ⟨hkind, hlength⟩ := Prod.mk.inj (hfound.symm.trans h)
  have hleading := leadingWord_eq_of_length hlength
  have hword : IsWord text := by
    refine ⟨⟨c, l, htext, hc⟩, fun e he => ?_⟩
    rw [← hleading, leadingWord, String.toList_ofList, ← take_run] at he
    exact forall_take_run isWordChar _ e he
  have halone : classify d (text.toList ++ []) = (d.wordKind text, text.length) :=
    classify_word_append d hword trivial
  rwa [List.append_nil, ← hleading, hkind, hleading] at halone

/-- A number is found again, since it is `Genuine`. -/
theorem classify_of_append_of_isDigit {l : List Char} (htext : text.toList = c :: l)
    (hc : c.isDigit = true) (h : classify d (text.toList ++ rest) = (k, text.length))
    (hgenuine : Genuine d text k) : classify d text.toList = (k, text.length) := by
  have hfound := h
  rw [htext, List.cons_append, classify_digit d hc] at hfound
  rw [← List.append_nil text.toList]
  split at hfound
  · obtain rfl := (Prod.mk.inj hfound).1
    exact classify_fixnum d hgenuine trivial
  · obtain rfl := (Prod.mk.inj hfound).1
    exact classify_flonum d hgenuine trivial

/-- A text that `startsTrailer` is a comment, at least up to the end of its line. -/
theorem lineComment_pos_of_startsTrailer (h : startsTrailer cs = true) : 0 < lineComment cs := by
  obtain ⟨tail, rfl⟩ := startsWith_iff.1 (Bool.and_eq_true_iff.1 h).1
  simp [lineComment, startsWith, List.isPrefixOf, restOfLine, run, isBreak]

/-- What `outputComment` finds, where it finds something: `trailerLines`, and blanks after them. -/
theorem outputComment_of_pos (h : 0 < outputComment cs) :
    startsTrailer cs = true ∧
      outputComment cs = restOfLine cs + trailerLines (cs.drop (restOfLine cs)) ∧
      (cs.drop (outputComment cs)).all Text.isBlank = true := by
  unfold outputComment at h ⊢
  split at h
  · next hstart =>
    rw [if_pos hstart]
    simp only at h ⊢
    split at h
    · next hblank =>
      rw [if_pos hblank]
      exact ⟨hstart, rfl, hblank⟩
    · cases h
  · cases h

/-- Where the trailer does not begin, `classify` tries the other rules. -/
theorem classify_of_outputComment_eq_zero (d : Dialect) (h : outputComment cs = 0) :
    classify d cs = ((rules d).tail.findSome? fun r => r.find? cs).getD (.unknown, 1) := by
  show ((⟨.outputComment, outputComment⟩ :: (rules d).tail).findSome? _).getD _ = _
  rw [List.findSome?_cons, Rule.find?_eq_none_iff.2 h]

/-- Whatever else does not begin with a word character is found again, by `findSome?_take`. -/
theorem classify_of_append_of_isWordChar_eq_false {l : List Char} (htext : text.toList = c :: l)
    (hc : isWordChar c = false) (hout : outputComment (text.toList ++ rest) = 0)
    (halone : outputComment text.toList = 0)
    (h : classify d (text.toList ++ rest) = (k, text.length)) :
    classify d text.toList = (k, text.length) := by
  rw [classify_of_outputComment_eq_zero d hout, htext, List.cons_append] at h
  rw [classify_of_outputComment_eq_zero d halone, htext]
  have hlength : text.length = l.length + 1 := by
    rw [← String.length_toList, htext, List.length_cons]
  have hagain : (rules d).tail.findSome? (fun r => r.find? (c :: (l ++ rest).take l.length)) =
      (rules d).tail.findSome? fun r => r.find? (c :: (l ++ rest)) := by
    refine findSome?_take (stableAt_rules hc) fun k' m hfind => ?_
    rw [hfind] at h
    exact (Prod.mk.inj h).2.trans hlength
  rw [List.take_left] at hagain
  rwa [hagain]

theorem ne_nil_of_classify_append (h : classify d (text.toList ++ rest) = (k, text.length)) :
    text.toList ≠ [] := by
  intro hnil
  have hpos := classify_pos d (text.toList ++ rest)
  rw [h, ← String.length_toList, hnil] at hpos
  exact Nat.lt_irrefl 0 hpos

/-- A token that `classify` finds in a text is `Genuine`. -/
theorem genuine_of_classify_append (h : classify d (text.toList ++ rest) = (k, text.length)) :
    Genuine d text k := by
  have hne : text.toList ++ rest ≠ [] := List.append_ne_nil_of_left_ne_nil
    (ne_nil_of_classify_append h) rest
  have hfirst := genuine_classify d hne
  rwa [h, ← String.length_toList, List.take_left, String.ofList_toList] at hfirst

/-- The first token of a text is found again with nothing after it, unless it is a comment with
the marker of the trailer. It is a word, a number, the trailer, or what `stableAt_rules` is
about. -/
theorem classify_of_append (h : classify d (text.toList ++ rest) = (k, text.length))
    (hmarker : ¬(k = .lineComment ∧ startsTrailer text.toList = true)) :
    classify d text.toList = (k, text.length) := by
  have hgenuine := genuine_of_classify_append h
  obtain ⟨c, l, htext⟩ := List.exists_cons_of_ne_nil (ne_nil_of_classify_append h)
  by_cases hc : isWordChar c = true
  · by_cases hstart : isWordStart c = true
    · exact classify_of_append_of_isWordStart htext hstart h
    · have hdigit : c.isDigit = true := by
        simp only [isWordStart, isWordChar, Char.isAlphanum, Bool.or_eq_true, not_or] at hc hstart
        exact (hc.resolve_right hstart.2).resolve_left hstart.1
      exact classify_of_append_of_isDigit htext hdigit h hgenuine
  · by_cases hout : 0 < outputComment (text.toList ++ rest)
    · rw [classify_outputComment d hout] at h
      obtain rfl := (Prod.mk.inj h).1
      rw [← List.append_nil text.toList]
      exact classify_outputComment_append d hgenuine ⟨lineEnd_nil, by decide, rfl⟩
    · have hzero : outputComment (text.toList ++ rest) = 0 := Nat.eq_zero_of_not_pos hout
      refine classify_of_append_of_isWordChar_eq_false htext (Bool.eq_false_iff.2 hc) hzero ?_ h
      -- a trailer that begins once the text ends here would be a comment with the marker
      refine Nat.eq_zero_of_not_pos fun hpos => ?_
      have hstart := (outputComment_of_pos hpos).1
      have hline : 0 < lineComment (text.toList ++ rest) := by
        rw [htext, List.cons_append]
        refine stableAt_lineComment.persists l rest ?_
        rw [← htext]
        exact lineComment_pos_of_startsTrailer hstart
      rw [classify_lineComment d hline hzero] at h
      exact hmarker ⟨(Prod.mk.inj h).1.symm, hstart⟩

/-- A comment that `startsTrailer` is a trailer once nothing follows. -/
theorem classify_of_startsTrailer (d : Dialect) (h : Genuine d text .lineComment)
    (hstart : startsTrailer text.toList = true) :
    classify d text.toList = (.outputComment, text.length) := by
  have hline : restOfLine text.toList = text.length := by
    have hall := restOfLine_append h.2 lineEnd_nil
    rwa [List.append_nil, String.length_toList] at hall
  -- with nothing after it the line is all of the trailer
  have hout : outputComment text.toList = text.length := by
    have hend : text.toList.drop text.length = [] := by
      rw [← String.length_toList, List.drop_length]
    have hnone : trailerLines [] = 0 := by
      rw [trailerLines]
      rfl
    simp [outputComment, hstart, hline, hend, hnone]
  have hpos : 0 < text.length := by
    rw [← hline]
    have := lineComment_pos_of_startsTrailer hstart
    rwa [lineComment, if_pos h.1] at this
  rw [classify_outputComment d (by rwa [hout]), hout]

end First

end Lexeme

/-! ## The tokens of a text -/

open Lexeme

variable {d : Dialect} {file text : String} {t : Token}

/-- A token of a text that does not mark the end is found by `classify` at some place of it. -/
theorem Lexer.exists_classify (ht : t ∈ (Lexer.ofText d file text).tokens) (hk : t.kind ≠ .eof) :
    ∃ rest, classify d (t.text.toList ++ rest) = (t.kind, t.text.length) := by
  obtain ⟨ts, last, hrun, hend⟩ := (Lexer.ofText d file text).exists_run
  rw [hrun.tokens hend, List.mem_append, List.mem_singleton] at ht
  rcases ht with ht | rfl
  · obtain ⟨pre, post, rfl⟩ := List.append_of_mem ht
    obtain ⟨l₁, l₂, hpre, hstep, -⟩ := hrun.exists_step
    refine ⟨l₂.rest, ?_⟩
    rw [← hstep.rest, ← hstep.found, hpre.dialect]
    rfl
  · exact absurd rfl hk

/-- A token of a text is the one token of its own text, with the same kind, and the end follows. The
only tokens that are not are comments up to the end of a line that begin as the trailer does: on
their own they are the trailer. -/
theorem lexesAlone_iff (ht : t ∈ (Lexer.ofText d file text).tokens) (hk : t.kind ≠ .eof) :
    LexesAlone d t.text t.kind ↔
      ¬(t.kind = .lineComment ∧ startsTrailer t.text.toList = true) := by
  obtain ⟨rest, hfound⟩ := Lexer.exists_classify ht hk
  constructor
  · rintro halone ⟨hkind, hstart⟩
    have hgenuine := genuine_of_classify_append hfound
    rw [hkind] at halone hgenuine
    have htrailer := lexesAlone_of_classify (classify_of_startsTrailer d hgenuine hstart)
    obtain ⟨_, _, hcomment⟩ := halone file
    obtain ⟨_, _, hout⟩ := htrailer file
    simp [hcomment] at hout
  · intro hmarker
    exact lexesAlone_of_classify (classify_of_append hfound hmarker)

theorem lexesAlone_compound_not_marker :
    LexesAlone .block "%=" .assign ∧ ¬LexesAlone .block "// OUTPUT: y" .lineComment := by
  have hmem : ∀ t ∈ ([⟨.assign, "%=", ⟨⟨1, 2⟩, "f", 1⟩⟩,
      ⟨.lineComment, "// OUTPUT: y", ⟨⟨1, 5⟩, "f", 4⟩⟩] : List Token),
      t ∈ (Lexer.ofText .block "f" "x%=1// OUTPUT: y\n;").tokens := by
    rw [Lexer.tokens_ofText]
    decide +kernel
  constructor
  · exact (lexesAlone_iff (hmem _ (.head _)) (by decide)).2 (by simp)
  · exact (lexesAlone_iff (hmem _ (.tail _ (.head _))) (by decide)).not.2 (by decide)

end Diglot

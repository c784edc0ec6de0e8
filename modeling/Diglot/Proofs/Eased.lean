import Diglot.Proofs.Standalone

/-!
# Blanks for semicolons

Texts in which blanks stand in the place of some semicolons. A scan that goes past a character
without stopping at it goes past both of these, and one that stops at it stops at both, so that all
but a few scans find the same in both texts. Those that tell the two apart do so at the first
character, but for two: a slash before a blank begins no regular expression, and a comment with the
marker is the trailer if only blanks follow. Where the trailer does not begin, and the first token
is no blank and stays, it is therefore found again.

- `Eased`: a text with blanks for some semicolons.
- `Eased.run_eq`, `Eased.stringBody_eq` and their companions: scans that find the same.
- `Eased.scan_cons`: what the rules find, if the first character stays.
- `Eased.classify_append`: a token whose own characters stay is found again.
-/

namespace Diglot.Lexeme

/-- One text has blanks where another one has some of its semicolons. Both are of one length. -/
inductive Eased : List Char → List Char → Prop
  | nil : Eased [] []
  | same (c : Char) {cs cs' : List Char} (h : Eased cs cs') : Eased (c :: cs) (c :: cs')
  | blank {cs cs' : List Char} (h : Eased cs cs') : Eased (';' :: cs) (' ' :: cs')

namespace Eased

variable {cs cs' ds ds' : List Char}

protected theorem refl (cs : List Char) : Eased cs cs := by
  induction cs with
  | nil => exact .nil
  | cons c cs ih => exact .same c ih

/-- `Eased` goes through texts in a row. -/
theorem append (h : Eased cs cs') (hds : Eased ds ds') : Eased (cs ++ ds) (cs' ++ ds') := by
  induction h with
  | nil => exact hds
  | same c _ ih => exact .same c ih
  | blank _ ih => exact .blank ih

/-- What is left after some characters is `Eased` too. -/
theorem drop (h : Eased cs cs') (n : Nat) : Eased (cs.drop n) (cs'.drop n) := by
  induction h generalizing n with
  | nil => simpa using Eased.nil
  | same c h ih =>
    cases n with
    | zero => exact .same c h
    | succ n => exact ih n
  | blank h ih =>
    cases n with
    | zero => exact .blank h
    | succ n => exact ih n

/-- No slash comes or goes. -/
theorem count_slash (h : Eased cs cs') : cs'.count '/' = cs.count '/' := by
  induction h with
  | nil => rfl
  | same c _ ih => rw [List.count_cons, List.count_cons, ih]
  | blank _ ih => rw [List.count_cons_of_ne (by decide), List.count_cons_of_ne (by decide), ih]

/-- Where there is no semicolon nothing changes. -/
theorem eq_of_not_mem (h : Eased cs cs') (hcs : ';' ∉ cs) : cs' = cs := by
  induction h with
  | nil => rfl
  | same c _ ih => rw [ih fun hmem => hcs (List.mem_cons_of_mem c hmem)]
  | blank _ _ => exact absurd List.mem_cons_self hcs

/-! ## Scans -/

/-- The first character is the same, if it is neither a semicolon nor a blank. -/
theorem head?_eq_iff (h : Eased cs cs') {e : Char} (hsemicolon : e ≠ ';') (hblank : e ≠ ' ') :
    cs'.head? = some e ↔ cs.head? = some e := by
  cases h with
  | nil => rfl
  | same c _ => rfl
  | blank _ => simp [hsemicolon.symm, hblank.symm]

/-- So is every other character. -/
theorem getElem?_eq_iff (h : Eased cs cs') (n : Nat) {e : Char} (hsemicolon : e ≠ ';')
    (hblank : e ≠ ' ') : cs'[n]? = some e ↔ cs[n]? = some e := by
  have hhead := (h.drop n).head?_eq_iff hsemicolon hblank
  rwa [List.head?_drop, List.head?_drop] at hhead

/-- `run` takes as many characters from both texts, if it treats blanks and semicolons alike. -/
theorem run_eq (h : Eased cs cs') {p : Char → Bool} (hp : p ' ' = p ';') :
    run p cs' = run p cs := by
  unfold run
  induction h with
  | nil => rfl
  | same c _ ih => cases hc : p c <;> simp [hc, ih]
  | blank _ ih => cases hc : p ';' <;> simp [hp, hc, ih]

theorem restOfLine_eq (h : Eased cs cs') : restOfLine cs' = restOfLine cs :=
  h.run_eq rfl

theorem fixnum_eq (h : Eased cs cs') : fixnum cs' = fixnum cs :=
  h.run_eq rfl

/-- Neither character belongs to a word, so words are the same. -/
theorem takeWhile_isWordChar_eq (h : Eased cs cs') :
    cs'.takeWhile isWordChar = cs.takeWhile isWordChar := by
  induction h with
  | nil => rfl
  | same c _ ih => rw [List.takeWhile_cons, List.takeWhile_cons, ih]
  | blank _ _ => rfl

theorem word_eq (h : Eased cs cs') (spelling : String) : word spelling cs' = word spelling cs := by
  rw [word, word, h.takeWhile_isWordChar_eq]

/-- A text with neither character stands at the beginning of both or of neither. -/
theorem isPrefixOf_eq (h : Eased cs cs') {lead : List Char} (hsemicolon : ';' ∉ lead)
    (hblank : ' ' ∉ lead) : lead.isPrefixOf cs' = lead.isPrefixOf cs := by
  induction lead generalizing cs cs' with
  | nil => rfl
  | cons e lead ih =>
    rw [List.mem_cons, not_or] at hsemicolon hblank
    cases h with
    | nil => rfl
    | same c h => rw [List.isPrefixOf, List.isPrefixOf, ih h hsemicolon.2 hblank.2]
    | blank _ =>
      have hsemicolon' : (e == ';') = false := beq_false_of_ne (Ne.symm hsemicolon.1)
      have hblank' : (e == ' ') = false := beq_false_of_ne (Ne.symm hblank.1)
      rw [List.isPrefixOf, List.isPrefixOf, hsemicolon', hblank', Bool.false_and, Bool.false_and]

theorem startsWith_slashes_eq (h : Eased cs cs') : startsWith "//" cs' = startsWith "//" cs :=
  h.isPrefixOf_eq (by decide) (by decide)

/-- `newline` finds the same, since line breaks stay. -/
theorem newline_eq (h : Eased cs cs') : newline cs' = newline cs := by
  have hcons (c : Char) (cs : List Char) : newline (c :: cs) =
      if c = '\r' ∧ cs.head? = some '\n' then 2 else if c = '\n' then 1 else 0 := by
    unfold newline
    split <;> simp_all [List.head?_eq_some_iff]
  cases h with
  | nil => rfl
  | same c h =>
    rw [hcons, hcons]
    simp only [h.head?_eq_iff (show '\n' ≠ ';' by decide) (by decide)]
  | blank h => rfl

/-- `assign` looks at signs other than the semicolon. -/
theorem assign_eq (h : Eased cs cs') : assign cs' = assign cs := by
  have hcons (c : Char) (cs : List Char) : assign (c :: cs) =
      if c = '=' then 1 else if isCompound c = true ∧ cs.head? = some '=' then 2 else 0 := by
    unfold assign
    split <;> simp_all [List.head?_eq_some_iff]
  cases h with
  | nil => rfl
  | same c h =>
    rw [hcons, hcons]
    simp only [h.head?_eq_iff (show '=' ≠ ';' by decide) (by decide)]
  | blank h => rw [hcons, hcons]; rfl

theorem lineComment_eq (h : Eased cs cs') : lineComment cs' = lineComment cs := by
  rw [lineComment, lineComment, h.startsWith_slashes_eq, h.restOfLine_eq]

/-- A comment ends where it did: both characters are gone past. -/
theorem blockCommentEnd_eq (h : Eased cs cs') : blockCommentEnd cs' = blockCommentEnd cs := by
  have hcons (c : Char) (cs : List Char) : blockCommentEnd (c :: cs) =
      if c = '*' ∧ cs.head? = some '/' then some 2 else (blockCommentEnd cs).map (· + 1) := by
    rw [blockCommentEnd.eq_def]
    split <;> simp_all [List.head?_eq_some_iff]
  induction h with
  | nil => rfl
  | same c h ih =>
    rw [hcons, hcons, ih]
    simp only [h.head?_eq_iff (show '/' ≠ ';' by decide) (by decide)]
  | blank h ih => rw [hcons, hcons, ih]; rfl

theorem blockComment_eq (h : Eased cs cs') : blockComment cs' = blockComment cs := by
  have hstart : startsWith "/*" cs' = startsWith "/*" cs :=
    h.isPrefixOf_eq (by decide) (by decide)
  rw [blockComment, blockComment, hstart, (h.drop 2).blockCommentEnd_eq]

/-- So does a string. After a backslash either character is gone past as well. -/
theorem stringBody_eq (h : Eased cs cs') {quote : Char} (hquote : isQuote quote = true) :
    stringBody quote cs' = stringBody quote cs := by
  fun_induction stringBody quote cs generalizing cs' with
  | case1 =>
    cases h
    rfl
  | case2 c hc =>
    cases h with
    | same _ h =>
      cases h
      rw [stringBody, if_pos hc]
    | blank _ => cases hc
  | case3 c hc e rest he =>
    cases h with
    | same _ h =>
      cases h with
      | same _ h => rw [stringBody, if_pos hc, if_pos he]
      | blank h => cases he
    | blank _ => cases hc
  | case4 c hc e rest he ih =>
    cases h with
    | same _ h =>
      cases h with
      | same _ h => rw [stringBody, if_pos hc, if_neg he, ih h]
      | blank h =>
        -- an escaped semicolon becomes an escaped blank
        rw [stringBody, if_pos hc, ← ih h]
        rfl
    | blank _ => cases hc
  | case5 c cs hc hbreak =>
    cases h with
    | same _ h => rw [stringBody.eq_def]; simp_all
    | blank _ => cases hbreak
  | case6 c cs hc hbreak hend =>
    cases h with
    | same _ h => rw [stringBody.eq_def]; simp_all
    | blank _ =>
      obtain rfl : ';' = quote := by simpa using hend
      cases hquote
  -- neither a semicolon nor a blank is a quote
  | case7 c cs hc hbreak hend ih =>
    cases h with
    | same _ h => rw [stringBody.eq_def]; simp_all
    | blank h =>
      have hblank : (' ' == quote) = false := by
        rw [beq_eq_false_iff_ne]
        rintro rfl
        cases hquote
      rw [stringBody.eq_def]; simp_all

theorem string_eq (h : Eased cs cs') : string cs' = string cs := by
  cases h with
  | nil => rfl
  | same q h =>
    cases hq : isQuote q with
    | false => simp [string, hq]
    | true => simp only [string, hq, h.stringBody_eq hq]
  | blank _ => rfl

theorem badString_eq (h : Eased cs cs') : badString cs' = badString cs := by
  cases h with
  | nil => rfl
  | same q h => rw [badString, badString, (h.same q).restOfLine_eq]
  | blank _ => rfl

/-- So does a regular expression, within a class and without. -/
theorem regexpBody_eq (h : Eased cs cs') (inClass : Bool) :
    regexpBody inClass cs' = regexpBody inClass cs := by
  fun_induction regexpBody inClass cs generalizing cs' with
  | case1 =>
    cases h
    rfl
  | case2 inClass c cs hbreak =>
    cases h with
    | same _ h => rw [regexpBody.eq_def]; simp_all
    | blank _ => cases hbreak
  | case3 inClass c hbreak hc =>
    cases h with
    | same _ h =>
      cases h
      rw [regexpBody, if_neg hbreak, if_pos hc]
    | blank _ => cases hc
  | case4 inClass c hbreak hc e rest he =>
    cases h with
    | same _ h =>
      cases h with
      | same _ h => rw [regexpBody, if_neg hbreak, if_pos hc, if_pos he]
      -- a line break is no semicolon
      | blank h => cases he
    | blank _ => cases hc
  | case5 inClass c hbreak hc e rest he ih =>
    cases h with
    | same _ h =>
      cases h with
      | same _ h => rw [regexpBody, if_neg hbreak, if_pos hc, if_neg he, ih h]
      | blank h =>
        rw [regexpBody, if_neg hbreak, if_pos hc, ← ih h]
        rfl
    | blank _ => cases hc
  | case6 inClass c cs hbreak hc hend =>
    cases h with
    | same _ h => rw [regexpBody.eq_def]; simp_all
    | blank _ => cases hend
  | case7 inClass c cs hbreak hc hend ih =>
    cases h with
    | same _ h => rw [regexpBody.eq_def]; simp_all
    | blank h => rw [regexpBody.eq_def]; simp_all [isBreak]

/-- `regexp` finds the same, unless the body begins with a semicolon that went: a blank there
begins none. -/
theorem regexp_cons (h : Eased cs cs') (c : Char) :
    regexp (c :: cs') = regexp (c :: cs) ∨
      cs.head? = some ';' ∧ cs'.head? = some ' ' ∧ regexp (c :: cs') = 0 := by
  by_cases hc : c = '/'
  · subst hc
    cases h with
    | nil => exact .inl rfl
    | same e h =>
      left
      simp only [regexp, (h.same e).regexpBody_eq]
      split
      · rfl
      · split
        · rw [((h.same e).drop _).run_eq rfl]
        · rfl
    | blank h => exact .inr ⟨rfl, rfl, rfl⟩
  · left
    unfold regexp
    split <;> split <;> simp_all

/-- `exponent` looks at letters, signs and digits. -/
theorem exponent_eq (h : Eased cs cs') : exponent cs' = exponent cs := by
  cases h with
  | nil => rfl
  | same c h =>
    simp only [exponent, h.head?_eq_iff (show '+' ≠ ';' by decide) (by decide),
      h.head?_eq_iff (show '-' ≠ ';' by decide) (by decide), (h.drop _).fixnum_eq]
  | blank _ => rfl

theorem flonum_eq (h : Eased cs cs') : flonum cs' = flonum cs := by
  simp only [flonum, h.fixnum_eq, (h.drop _).fixnum_eq, (h.drop _).exponent_eq, ne_eq,
    h.getElem?_eq_iff _ (show '.' ≠ ';' by decide) (by decide)]

theorem symbol_eq (h : Eased cs cs') : symbol cs' = symbol cs := by
  cases h with
  | nil => rfl
  | same c h => rw [symbol, symbol, (h.same c).run_eq rfl]
  | blank _ => rfl

/-- A sign is found again, if the first character stays. -/
theorem fixed_cons (h : Eased cs cs') (c : Char) (p : Punct) :
    fixed p.spelling (c :: cs') = fixed p.spelling (c :: cs) := by
  by_cases hp : p = .semicolon
  · subst hp
    simp [fixed, startsWith, Punct.spelling]
  · have hstart : startsWith p.spelling (c :: cs') = startsWith p.spelling (c :: cs) :=
      (h.same c).isPrefixOf_eq (by cases p <;> first | decide | exact absurd rfl hp)
        (by cases p <;> decide)
    rw [fixed, fixed, hstart]

/-! ## Tokens -/

/-- Whatever one of the `rules` finds it finds again, if the first character stays and is no
blank. The first rule is the one for the trailer. -/
theorem scan_cons (h : Eased cs cs') {c : Char} (hc : isSpace c = false)
    (hregexp : regexp (c :: cs') = regexp (c :: cs)) (d : Dialect) :
    ∀ r ∈ (rules d).tail, r.scan (c :: cs') = r.scan (c :: cs) := by
  have hboth := h.same c
  have hpunct : ∀ p : Punct, (Rule.punct p).scan (c :: cs') = (Rule.punct p).scan (c :: cs) :=
    h.fixed_cons c
  have hspace : whitespace (c :: cs') = whitespace (c :: cs) := by
    simp [whitespace, run, hc]
  have hearly : ∀ r ∈ earlyRules.tail, r.scan (c :: cs') = r.scan (c :: cs) := by
    simp only [earlyRules, List.tail_cons, List.forall_mem_cons, List.not_mem_nil, false_implies,
      implies_true, and_true, hpunct, true_and]
    exact ⟨hboth.newline_eq, hspace, hboth.lineComment_eq, hboth.blockComment_eq, hregexp,
      hboth.string_eq, hboth.badString_eq, hboth.assign_eq, hboth.word_eq _, hboth.word_eq _⟩
  have hlate : ∀ r ∈ lateRules, r.scan (c :: cs') = r.scan (c :: cs) := by
    simp only [lateRules, List.forall_mem_cons, List.not_mem_nil, false_implies, implies_true,
      and_true, hpunct]
    exact ⟨hboth.flonum_eq, hboth.symbol_eq, hboth.fixnum_eq⟩
  exact forall_mem_tail_rules hearly (fun k => hboth.word_eq k.spelling) hlate d

/-- `regexp` finds the same, if all of the first token stays: a slash alone, before a semicolon,
begins none. -/
theorem regexp_append {d : Dialect} {k : TokenKind} {c : Char} {text rest rest' : List Char}
    (h : Eased rest rest') (hfound : classify d (c :: text ++ rest) = (k, (c :: text).length)) :
    regexp (c :: text ++ rest') = regexp (c :: text ++ rest) := by
  rcases ((Eased.refl text).append h).regexp_cons c with hsame | ⟨hsemicolon, hblank, hnone⟩
  · exact hsame
  · -- the semicolon comes right after the slash, so the token is the slash alone
    have htext : text = [] := by
      cases text with
      | nil => rfl
      | cons e text =>
        have hne : some ';' = some ' ' := hsemicolon.symm.trans hblank
        simp at hne
    subst htext
    rw [List.cons_append, hnone]
    by_contra hne
    have hpos : 0 < regexp (c :: rest) := Nat.pos_of_ne_zero (Ne.symm hne)
    obtain ⟨e, tail, n, hcs, -, hbody⟩ := exists_of_regexp hpos
    obtain ⟨rfl, rfl⟩ := List.cons.inj hcs
    obtain rfl : e = ';' := by simpa using hsemicolon
    -- but a regular expression that begins there would be longer than the slash
    have hlong := hfound.symm.trans (classify_regexp d hpos rfl)
    have hlength : 1 = regexp ('/' :: ';' :: tail) := (Prod.mk.inj hlong).2
    rw [regexp_of_regexpBody rfl hbody] at hlength
    have hbodyPos := (regexpBody_take hbody).1
    omega

/-- A token that begins with no blank, and is not the trailer, is found again by `classify`
where blanks come after it in the place of semicolons, unless it becomes the trailer. -/
theorem classify_append {d : Dialect} {k : TokenKind} {c : Char} {text rest rest' : List Char}
    (h : Eased rest rest') (hc : isSpace c = false)
    (hfound : classify d (c :: text ++ rest) = (k, (c :: text).length))
    (hout : outputComment (c :: text ++ rest) = 0)
    (hout' : outputComment (c :: text ++ rest') = 0) :
    classify d (c :: text ++ rest') = (k, (c :: text).length) := by
  have hscan := ((Eased.refl text).append h).scan_cons hc (h.regexp_append hfound) d
  rw [classify_of_outputComment_eq_zero d hout] at hfound
  rw [classify_of_outputComment_eq_zero d hout', ← hfound]
  have hfind : ∀ r ∈ (rules d).tail,
      r.find? (c :: (text ++ rest')) = r.find? (c :: (text ++ rest)) := by
    intro r hr
    rw [Rule.find?, Rule.find?, hscan r hr]
  rw [← List.head?_filterMap, ← List.head?_filterMap, List.cons_append, List.cons_append,
    List.filterMap_congr hfind]

end Eased

end Diglot.Lexeme

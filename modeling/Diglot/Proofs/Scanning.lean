import Diglot.Lexeme.Rule

/-!
# Scans are local

What a scan finds depends on the characters it takes and, at most, on whether what follows them
could prolong it. So a lexeme found in one text is found again in every other text that holds it, if
it is followed there by something that does not go on a word or a number.

- `Boundary`: what follows does not prolong a word or a number.
- `Fixes`: a scan takes no more characters than there are, and finds the ones that it takes again.
- `fixes_blockComment`, `fixes_regexp`, `fixes_string`, `fixes_flonum`, `fixes_outputComment`: the
  scans that do.
- `LineEnd`, `lineComment_append`: a comment up to the end of its line is found again before the end
  of a line.
-/

namespace Diglot.Lexeme

/-- A text that prolongs no word and no number. A point does not, unless a digit follows it. -/
def Boundary : List Char → Prop
  | [] => True
  | c :: cs => isWordChar c = false ∧ (c = '.' → ∀ e, cs.head? = some e → e.isDigit = false)

/-- A scan takes characters that are there, and finds them again before every text that is `ok`. -/
def Fixes (ok : List Char → Prop) (scan : Scan) : Prop :=
  ∀ cs, 0 < scan cs →
    scan cs ≤ cs.length ∧ ∀ rest, ok rest → scan (cs.take (scan cs) ++ rest) = scan cs

/-- What is so of each character of a text, one after the other. -/
theorem forall_mem_of_all {P : Char → Prop} [DecidablePred P] {cs : List Char}
    (h : (cs.all fun c => decide (P c)) = true) : ∀ c ∈ cs, P c := by
  simpa using h

/-! ## Runs -/

section Runs

variable {p : Char → Bool} {text rest : List Char}

/-- A run goes through a text of its class and on into what follows. -/
theorem run_append (h : ∀ c ∈ text, p c = true) :
    run p (text ++ rest) = text.length + run p rest := by
  simp [run, List.takeWhile_append_of_pos h]

/-- A run does not begin with a character that is not of its class. -/
theorem run_eq_zero (h : ∀ c, rest.head? = some c → p c = false) : run p rest = 0 := by
  cases rest with
  | nil => rfl
  | cons c cs => simp [run, h c rfl]

theorem run_le (p : Char → Bool) (cs : List Char) : run p cs ≤ cs.length :=
  (List.takeWhile_sublist p).length_le

/-- What `run` takes is the list's own `takeWhile`; `drop_run` is the same for what it leaves. -/
theorem take_run (p : Char → Bool) (cs : List Char) : cs.take (run p cs) = cs.takeWhile p := by
  induction cs with
  | nil => rfl
  | cons c cs ih =>
    cases hc : p c with
    | true => simpa [run, hc] using ih
    | false => simp [run, hc]

theorem drop_run (p : Char → Bool) (cs : List Char) : cs.drop (run p cs) = cs.dropWhile p := by
  induction cs with
  | nil => rfl
  | cons c cs ih =>
    cases hc : p c with
    | true => simpa [run, hc] using ih
    | false => simp [run, hc]

/-- The characters of a run are of its class. -/
theorem forall_take_run (p : Char → Bool) (cs : List Char) :
    ∀ c ∈ cs.take (run p cs), p c = true := by
  intro c hc
  rw [take_run] at hc
  exact List.all_eq_true.1 List.all_takeWhile c hc

/-- A run stops where its class does. -/
theorem head?_drop_run (p : Char → Bool) (cs : List Char) (c : Char)
    (h : (cs.drop (run p cs)).head? = some c) : p c = false := by
  rw [drop_run] at h
  have := List.head?_dropWhile_not p cs
  rw [h] at this
  simpa using this

end Runs

/-- `startsWith` splits off the characters that it asks for. -/
theorem startsWith_iff {lead : String} {cs : List Char} :
    startsWith lead cs = true ↔ ∃ rest, cs = lead.toList ++ rest := by
  simp only [startsWith, List.isPrefixOf_iff_prefix, List.IsPrefix]
  exact ⟨fun ⟨rest, h⟩ => ⟨rest, h.symm⟩, fun ⟨rest, h⟩ => ⟨rest, h.symm⟩⟩

/-- The first character of a `Boundary` goes on no word. -/
theorem Boundary.head? {rest : List Char} (h : Boundary rest) (c : Char)
    (hc : rest.head? = some c) : isWordChar c = false := by
  cases rest with
  | nil => simp at hc
  | cons e cs =>
    obtain rfl : e = c := by simpa using hc
    exact h.1

theorem isWordChar_of_isDigit {c : Char} (h : c.isDigit = true) : isWordChar c = true := by
  simp [isWordChar, Char.isAlphanum, h]

/-- No digit goes on a number before a `Boundary`. -/
theorem Boundary.isDigit {rest : List Char} (h : Boundary rest) (c : Char)
    (hc : rest.head? = some c) : c.isDigit = false := by
  have hword := h.head? c hc
  cases hd : c.isDigit with
  | false => rfl
  | true => rw [isWordChar_of_isDigit hd] at hword; exact absurd hword (by decide)

/-! ## Comments, regular expressions and strings -/

/-- Where `blockCommentEnd` finds the end, it has both marks in the text and looks no further. -/
theorem blockCommentEnd_take {cs : List Char} {n : Nat} (h : blockCommentEnd cs = some n) :
    2 ≤ n ∧ n ≤ cs.length ∧ ∀ rest, blockCommentEnd (cs.take n ++ rest) = some n := by
  fun_induction blockCommentEnd cs generalizing n with
  | case1 cs =>
    obtain rfl : 2 = n := by simpa using h
    exact ⟨Nat.le_refl 2, by simp, fun rest => rfl⟩
  | case2 c cs hne ih =>
    obtain ⟨m, hm, rfl⟩ := Option.map_eq_some_iff.1 h
    obtain ⟨htwo, hle, hrest⟩ := ih hm
    refine ⟨by omega, by simpa using hle, fun rest => ?_⟩
    have hcons : (c :: cs).take (m + 1) ++ rest = c :: (cs.take m ++ rest) := by simp
    -- the first two characters are still there, so the mark is not closed any earlier
    have hne' : ∀ tail, c = '*' → cs.take m ++ rest = '/' :: tail → False := by
      intro tail hc htail
      cases cs with
      | nil => simp at hle; omega
      | cons e cs =>
        obtain ⟨m, rfl⟩ : ∃ k, m = k + 1 := ⟨m - 1, by omega⟩
        simp only [List.take_succ_cons, List.cons_append, List.cons.injEq] at htail
        exact hne cs hc (by rw [htail.1])
    rw [hcons, blockCommentEnd, hrest rest]
    · rfl
    · exact hne'
  | case3 => simp at h

/-- A comment between its marks is found again before every text: `blockCommentEnd` stops at the
mark. -/
theorem fixes_blockComment : Fixes (fun _ => True) blockComment := by
  intro cs hpos
  unfold blockComment at hpos ⊢
  by_cases hstart : startsWith "/*" cs = true
  · obtain ⟨body, rfl⟩ := startsWith_iff.1 hstart
    rw [if_pos hstart] at hpos ⊢
    have hdrop : ("/*".toList ++ body).drop 2 = body := rfl
    rw [hdrop] at hpos ⊢
    cases hend : blockCommentEnd body with
    | none => simp [hend] at hpos
    | some n =>
      -- the end mark is within what is taken
      obtain ⟨-, hle, hrest⟩ := blockCommentEnd_take hend
      refine ⟨by simp; omega, fun rest _ => ?_⟩
      have htake : ("/*".toList ++ body).take (2 + n) ++ rest
          = "/*".toList ++ (body.take n ++ rest) := by
        rw [Nat.add_comm]
        simp
      have hdrop' : ("/*".toList ++ (body.take n ++ rest)).drop 2 = body.take n ++ rest := rfl
      simp only [htake, hdrop', hrest rest]
      rw [if_pos (startsWith_iff.2 ⟨_, rfl⟩)]
  · simp [hstart] at hpos

/-- A body that `regexpBody` finds, within a class or outside one, is found again before every
text. -/
theorem regexpBody_take {inClass : Bool} {cs : List Char} {n : Nat}
    (h : regexpBody inClass cs = some n) :
    1 ≤ n ∧ n ≤ cs.length ∧ ∀ rest, regexpBody inClass (cs.take n ++ rest) = some n := by
  fun_induction regexpBody inClass cs generalizing n with
  | case1 => simp at h
  | case2 => simp at h
  | case3 => simp at h
  | case4 => simp at h
  -- an escaped character: two are taken, so the one after the backslash is still there
  | case5 inClass c hb hc e cs he ih =>
    obtain ⟨m, hm, rfl⟩ := Option.map_eq_some_iff.1 h
    obtain ⟨-, hle, hrest⟩ := ih hm
    refine ⟨by omega, by simpa using hle, fun rest => ?_⟩
    rw [List.take_succ_cons, List.take_succ_cons, List.cons_append, List.cons_append,
      regexpBody.eq_def]
    simp [hb, hc, he, hrest rest]
  -- the closing slash: one character is taken, and nothing after it is looked at
  | case6 =>
    obtain rfl : 1 = n := by simpa using h
    refine ⟨Nat.le_refl 1, by simp, fun rest => ?_⟩
    rw [List.take_succ_cons, List.cons_append, regexpBody.eq_def]
    simp_all
  | case7 inClass c cs hb hc hslash ih =>
    obtain ⟨m, hm, rfl⟩ := Option.map_eq_some_iff.1 h
    obtain ⟨-, hle, hrest⟩ := ih hm
    refine ⟨by omega, by simpa using hle, fun rest => ?_⟩
    rw [List.take_succ_cons, List.cons_append, regexpBody.eq_def]
    simp [hb, hc, hslash, hrest rest]

/-- A body that `stringBody` finds is found again before every text: it ends with its own quote. -/
theorem stringBody_take {quote : Char} {cs : List Char} {n : Nat}
    (h : stringBody quote cs = some n) :
    1 ≤ n ∧ n ≤ cs.length ∧ ∀ rest, stringBody quote (cs.take n ++ rest) = some n := by
  fun_induction stringBody quote cs generalizing n with
  | case1 => simp at h
  | case2 => simp at h
  | case3 => simp at h
  -- as for regular expressions, an escaped character takes two
  | case4 c hc e cs he ih =>
    obtain ⟨m, hm, rfl⟩ := Option.map_eq_some_iff.1 h
    obtain ⟨-, hle, hrest⟩ := ih hm
    refine ⟨by omega, by simpa using hle, fun rest => ?_⟩
    rw [List.take_succ_cons, List.take_succ_cons, List.cons_append, List.cons_append,
      stringBody.eq_def]
    simp [hc, he, hrest rest]
  | case5 => simp at h
  | case6 =>
    obtain rfl : 1 = n := by simpa using h
    refine ⟨Nat.le_refl 1, by simp, fun rest => ?_⟩
    rw [List.take_succ_cons, List.cons_append, stringBody.eq_def]
    simp_all
  | case7 c cs hc hn hq ih =>
    obtain ⟨m, hm, rfl⟩ := Option.map_eq_some_iff.1 h
    obtain ⟨-, hle, hrest⟩ := ih hm
    refine ⟨by omega, by simpa using hle, fun rest => ?_⟩
    rw [List.take_succ_cons, List.cons_append, stringBody.eq_def]
    simp [hc, hn, hq, hrest rest]

/-- A string is found again before every text, by `stringBody_take`. -/
theorem fixes_string : Fixes (fun _ => True) string := by
  intro cs hpos
  unfold string at hpos ⊢
  match cs with
  | [] => simp at hpos
  | q :: cs =>
    cases hq : isQuote q with
    | false => simp [hq] at hpos
    | true =>
      cases hbody : stringBody q cs with
      | none => simp [hq, hbody] at hpos
      | some n =>
        obtain ⟨-, hle, hrest⟩ := stringBody_take hbody
        have htake : ∀ rest, (q :: cs).take (1 + n) ++ rest = q :: (cs.take n ++ rest) := by
          intro rest
          rw [Nat.add_comm]
          simp
        simp only [hq, hbody, if_true, htake, hrest]
        exact ⟨by simp; omega, fun _ _ => trivial⟩

/-- A regular expression that is found has a body, which does not begin with a blank or a star. -/
theorem exists_of_regexp {cs : List Char} (h : 0 < regexp cs) :
    ∃ c tail n, cs = '/' :: c :: tail ∧ (Text.isBlank c || c == '*') = false ∧
      regexpBody false (c :: tail) = some n := by
  unfold regexp at h
  split at h
  · next c tail =>
    cases hc : Text.isBlank c || c == '*' with
    | true => simp [hc] at h
    | false =>
      cases hbody : regexpBody false (c :: tail) with
      | none => simp [hc, hbody] at h
      | some n => exact ⟨c, tail, n, rfl, hc, hbody⟩
  · simp at h

/-- The length of a regular expression from that of its body: the slash, the body and the flags. -/
theorem regexp_of_regexpBody {c : Char} {tail : List Char} {n : Nat}
    (hc : (Text.isBlank c || c == '*') = false) (hbody : regexpBody false (c :: tail) = some n) :
    regexp ('/' :: c :: tail) = 1 + n + run isFlag ((c :: tail).drop n) := by
  simp only [regexp, hc, hbody]
  rfl

/-- Flags are letters, so a `Boundary` ends them. -/
theorem isWordChar_of_isFlag {c : Char} (h : isFlag c = true) : isWordChar c = true := by
  simp only [isFlag, Bool.or_eq_true, beq_iff_eq] at h
  rcases h with ((rfl | rfl) | rfl) | rfl <;> decide

/-- A class of word characters does not go on past a `Boundary`. -/
theorem Boundary.run_eq_zero {p : Char → Bool} {rest : List Char} (h : Boundary rest)
    (hp : ∀ c, p c = true → isWordChar c = true) : run p rest = 0 := by
  refine Lexeme.run_eq_zero fun c hc => ?_
  have hword := h.head? c hc
  cases hpc : p c with
  | false => rfl
  | true => rw [hp c hpc] at hword; exact absurd hword (by decide)

/-- A regular expression is found again before a `Boundary`, which does not go on its flags. -/
theorem fixes_regexp : Fixes Boundary regexp := by
  intro cs hpos
  obtain ⟨c, tail, n, rfl, hc, hbody⟩ := exists_of_regexp hpos
  obtain ⟨hone, hle, hrest⟩ := regexpBody_take hbody
  rw [regexp_of_regexpBody hc hbody]
  have hflags := run_le isFlag ((c :: tail).drop n)
  rw [List.length_drop] at hflags
  refine ⟨by simp at *; omega, fun rest hok => ?_⟩
  -- the text without its slash is the body and the flags
  obtain ⟨n, rfl⟩ : ∃ m, n = m + 1 := ⟨n - 1, by omega⟩
  have htake : ('/' :: c :: tail).take (1 + (n + 1) + run isFlag ((c :: tail).drop (n + 1))) ++ rest
      = '/' :: c :: (tail.take n ++ ((tail.drop n).take (run isFlag (tail.drop n)) ++ rest)) := by
    have harith : 1 + (n + 1) + run isFlag (tail.drop n) = n + run isFlag (tail.drop n) + 2 := by
      omega
    simp only [List.drop_succ_cons, harith, List.take_succ_cons, List.take_add, List.cons_append,
      List.append_assoc]
  have hbody' := hrest ((tail.drop n).take (run isFlag (tail.drop n)) ++ rest)
  rw [List.take_succ_cons, List.cons_append] at hbody'
  have hlen : (tail.take n).length = n := by
    simp at hle ⊢
    omega
  rw [htake, regexp_of_regexpBody hc hbody', List.drop_succ_cons, List.drop_succ_cons,
    List.drop_left' hlen, run_append (forall_take_run isFlag _),
    hok.run_eq_zero fun _ => isWordChar_of_isFlag, List.length_take, Nat.min_eq_left (run_le _ _)]
  rfl

/-! ## Numbers -/

theorem isWordChar_of_exponent {c : Char} (h : (c == 'e' || c == 'E') = true) :
    isWordChar c = true := by
  simp only [Bool.or_eq_true, beq_iff_eq] at h
  rcases h with rfl | rfl <;> decide

/-- No exponent begins at a `Boundary`. -/
theorem Boundary.exponent_eq_zero {rest : List Char} (h : Boundary rest) : exponent rest = 0 := by
  cases rest with
  | nil => rfl
  | cons c cs =>
    have hc : (c == 'e' || c == 'E') = false := by
      cases he : c == 'e' || c == 'E' with
      | false => rfl
      | true => exact absurd h.1 (by simp [isWordChar_of_exponent he])
    simp [exponent, hc]

/-- The digits at the start of a text, found again before a `Boundary`. -/
theorem fixnum_take {cs rest : List Char} (h : Boundary rest) :
    fixnum (cs.take (fixnum cs) ++ rest) = fixnum cs := by
  rw [fixnum, run_append (forall_take_run Char.isDigit cs),
    h.run_eq_zero fun _ => isWordChar_of_isDigit, List.length_take, Nat.min_eq_left (run_le _ _),
    Nat.add_zero]

/-- The sign of an exponent takes one character. -/
def signLength (cs : List Char) : Nat :=
  if cs.head? = some '+' ∨ cs.head? = some '-' then 1 else 0

/-- An `exponent` with the sign as a length, so that the two signs and their absence are one
case. -/
theorem exponent_cons {e : Char} (he : (e == 'e' || e == 'E') = true) (cs : List Char) :
    exponent (e :: cs) = if fixnum (cs.drop (signLength cs)) = 0 then 0
      else 1 + signLength cs + fixnum (cs.drop (signLength cs)) := by
  simp only [exponent, he]
  rfl

/-- An `exponent`, even one that is not there, is found again before a `Boundary`. -/
theorem exponent_take (cs : List Char) : exponent cs ≤ cs.length ∧
    ∀ rest, Boundary rest → exponent (cs.take (exponent cs) ++ rest) = exponent cs := by
  by_cases hzero : exponent cs = 0
  · rw [hzero]
    exact ⟨Nat.zero_le _, fun rest hok => by simpa using hok.exponent_eq_zero⟩
  cases cs with
  | nil => exact absurd rfl hzero
  | cons e cs =>
    cases he : e == 'e' || e == 'E' with
    | false => simp [exponent, he] at hzero
    | true =>
      rw [exponent_cons he] at hzero ⊢
      have hdigits : fixnum (cs.drop (signLength cs)) ≠ 0 := fun h => hzero (if_pos h)
      rw [if_neg hdigits]
      have hle := run_le Char.isDigit (cs.drop (signLength cs))
      rw [List.length_drop] at hle
      refine ⟨by simp [fixnum] at *; omega, fun rest hok => ?_⟩
      have htake : (e :: cs).take (1 + signLength cs + fixnum (cs.drop (signLength cs))) ++ rest
          = e :: (cs.take (signLength cs + fixnum (cs.drop (signLength cs))) ++ rest) := by
        rw [Nat.add_assoc, Nat.add_comm 1, List.take_succ_cons, List.cons_append]
      -- the sign, or else the first digit, is still the first character
      have hhead : (cs.take (signLength cs + fixnum (cs.drop (signLength cs))) ++ rest).head?
          = cs.head? := by
        cases cs with
        | nil => simp [fixnum, run] at hdigits
        | cons c cs =>
          obtain ⟨m, hm⟩ := Nat.exists_eq_succ_of_ne_zero (n := signLength (c :: cs)
            + fixnum ((c :: cs).drop (signLength (c :: cs)))) (by omega)
          rw [hm]
          rfl
      have hsign : signLength (cs.take (signLength cs + fixnum (cs.drop (signLength cs))) ++ rest)
          = signLength cs := by
        rw [signLength, hhead]
        rfl
      have hlen : (cs.take (signLength cs)).length = signLength cs := by
        rw [List.length_take]
        simp only [fixnum] at hdigits hle
        omega
      rw [htake, exponent_cons he, hsign, List.take_add, List.append_assoc, List.drop_left' hlen,
        fixnum_take hok, if_neg hdigits]

theorem take_fixnum_ne_nil {cs : List Char} (h : fixnum cs ≠ 0) : cs.take (fixnum cs) ≠ [] := by
  have hle : fixnum cs ≤ cs.length := run_le _ _
  intro hnil
  have hlen := congrArg List.length hnil
  rw [List.length_take, Nat.min_eq_left hle] at hlen
  exact h hlen

/-- The length of a number with a point from its parts, which `exists_of_flonum` gives. -/
theorem flonum_append {whole fraction tail : List Char} (hw : whole ≠ []) (hf : fraction ≠ [])
    (hwhole : ∀ c ∈ whole, c.isDigit = true) (hfraction : ∀ c ∈ fraction, c.isDigit = true)
    (htail : ∀ c, tail.head? = some c → c.isDigit = false) :
    flonum (whole ++ '.' :: (fraction ++ tail))
      = whole.length + 1 + fraction.length + exponent tail := by
  have hw' := List.length_pos_iff.2 hw
  have hf' := List.length_pos_iff.2 hf
  have hpoint : run Char.isDigit ('.' :: (fraction ++ tail)) = 0 := run_eq_zero (by simp)
  -- the two runs of digits end at the point and before the tail
  have hfixnum : fixnum (whole ++ '.' :: (fraction ++ tail)) = whole.length := by
    rw [fixnum, run_append hwhole, hpoint, Nat.add_zero]
  have hdrop : (whole ++ '.' :: (fraction ++ tail)).drop (whole.length + 1) = fraction ++ tail := by
    rw [← List.drop_drop, List.drop_left, List.drop_succ_cons, List.drop_zero]
  have hdrop' : (whole ++ '.' :: (fraction ++ tail)).drop (whole.length + 1 + fraction.length)
      = tail := by
    rw [← List.drop_drop, hdrop, List.drop_left]
  have hfixnum' : fixnum (fraction ++ tail) = fraction.length := by
    rw [fixnum, run_append hfraction, run_eq_zero htail, Nat.add_zero]
  simp only [flonum, hfixnum, hdrop, hfixnum', hdrop']
  rw [if_neg]
  rintro (hzero | hzero | hpoint')
  · omega
  · omega
  · exact hpoint' (by simp)

/-- The parts of a number with a point. -/
theorem exists_of_flonum {cs : List Char} (h : 0 < flonum cs) :
    ∃ whole fraction tail, cs = whole ++ '.' :: (fraction ++ tail) ∧ whole ≠ [] ∧ fraction ≠ [] ∧
      (∀ c ∈ whole, c.isDigit = true) ∧ (∀ c ∈ fraction, c.isDigit = true) ∧
      ∀ c, tail.head? = some c → c.isDigit = false := by
  simp only [flonum] at h
  split at h
  · simp at h
  next hparts =>
  simp only [not_or, ne_eq, Decidable.not_not] at hparts
  obtain ⟨hw, hf, hpoint⟩ := hparts
  have hsplit := List.take_append_drop (fixnum cs) cs
  -- the character after the first digits is the point
  have hdrop : cs.drop (fixnum cs) = '.' :: cs.drop (fixnum cs + 1) := by
    obtain ⟨hlt, hget⟩ := List.getElem?_eq_some_iff.1 hpoint
    rw [List.drop_eq_getElem_cons hlt, hget]
  refine ⟨cs.take (fixnum cs), (cs.drop (fixnum cs + 1)).take (fixnum (cs.drop (fixnum cs + 1))),
    (cs.drop (fixnum cs + 1)).drop (fixnum (cs.drop (fixnum cs + 1))), ?_,
    take_fixnum_ne_nil hw, take_fixnum_ne_nil hf, forall_take_run _ _, forall_take_run _ _,
    head?_drop_run _ _⟩
  rw [List.take_append_drop, ← hdrop, hsplit]

/-- A number with a point is found again before a `Boundary`. -/
theorem fixes_flonum : Fixes Boundary flonum := by
  intro cs hpos
  obtain ⟨whole, fraction, tail, rfl, hw, hf, hwhole, hfraction, htail⟩ := exists_of_flonum hpos
  rw [flonum_append hw hf hwhole hfraction htail]
  obtain ⟨hle, hexp⟩ := exponent_take tail
  refine ⟨by simp; omega, fun rest hok => ?_⟩
  have htake : (whole ++ '.' :: (fraction ++ tail)).take
      (whole.length + 1 + fraction.length + exponent tail) ++ rest
      = whole ++ '.' :: (fraction ++ (tail.take (exponent tail) ++ rest)) := by
    have harith : whole.length + 1 + fraction.length + exponent tail
        = whole.length + (fraction.length + exponent tail + 1) := by omega
    rw [harith, List.take_length_add_append, List.take_succ_cons, List.take_length_add_append]
    simp
  -- what follows the fraction is the exponent or, without one, the boundary
  have htail' : ∀ c, (tail.take (exponent tail) ++ rest).head? = some c → c.isDigit = false := by
    intro c hc
    cases hx : tail.take (exponent tail) with
    | nil =>
      rw [hx] at hc
      exact hok.isDigit c hc
    | cons e es =>
      rw [hx] at hc
      refine htail c ?_
      have hsplit := List.take_append_drop (exponent tail) tail
      rw [hx] at hsplit
      rw [← hsplit]
      exact hc
  rw [htake, flonum_append hw hf hwhole hfraction htail', hexp rest hok]

/-! ## Lines -/

/-- A text that begins with a line break, or none at all: what `restOfLine` stops at. -/
def LineEnd (rest : List Char) : Prop :=
  ∀ c, rest.head? = some c → isBreak c = true

theorem lineEnd_nil : LineEnd [] := by
  intro c hc
  simp at hc

/-- Whether a line begins in some way does not depend on what follows the line. A `lead` holds
no line break, so it does not reach past the line. -/
theorem startsWith_append {lead : String} {line rest : List Char}
    (hlead : ∀ c ∈ lead.toList, isBreak c = false) (hrest : LineEnd rest) :
    startsWith lead (line ++ rest) = startsWith lead line := by
  unfold startsWith
  generalize lead.toList = cs at hlead
  induction cs generalizing line with
  | nil => simp
  | cons c cs ih =>
    cases line with
    | nil =>
      cases rest with
      | nil => rfl
      | cons e rest =>
        -- past the line, the next character is a line break, which is not in the lead
        have hbreak := hrest e rfl
        have hc := hlead c (by simp)
        have hne : (c == e) = false := by
          rw [beq_eq_false_iff_ne]
          rintro rfl
          rw [hbreak] at hc
          exact absurd hc (by decide)
        simp [List.isPrefixOf, hne]
    | cons e line =>
      simp only [List.cons_append, List.isPrefixOf]
      rw [ih fun c hc => hlead c (List.mem_cons_of_mem _ hc)]

theorem restOfLine_append {line rest : List Char} (hline : ∀ c ∈ line, isBreak c = false)
    (hrest : LineEnd rest) : restOfLine (line ++ rest) = line.length := by
  rw [restOfLine, run_append fun c hc => by simp [hline c hc],
    run_eq_zero fun c hc => by simp [hrest c hc], Nat.add_zero]

/-- A comment up to the end of its line is found again before a `LineEnd`. -/
theorem lineComment_append {line rest : List Char} (hstart : startsWith "//" line = true)
    (hline : ∀ c ∈ line, isBreak c = false) (hrest : LineEnd rest) :
    lineComment (line ++ rest) = line.length := by
  rw [lineComment, startsWith_append (forall_mem_of_all (by decide)) hrest, hstart, if_pos rfl,
    restOfLine_append hline hrest]

/-- The line that `lineComment` takes. -/
theorem exists_of_lineComment {cs : List Char} (h : 0 < lineComment cs) :
    ∃ line rest, cs = line ++ rest ∧ startsWith "//" line = true ∧
      (∀ c ∈ line, isBreak c = false) ∧ LineEnd rest := by
  unfold lineComment at h
  split at h
  · next hstart =>
    have hrest : LineEnd (cs.drop (restOfLine cs)) := by
      intro c hc
      simpa using head?_drop_run _ _ c hc
    have hsplit := List.take_append_drop (restOfLine cs) cs
    refine ⟨cs.take (restOfLine cs), cs.drop (restOfLine cs), hsplit.symm, ?_, ?_, hrest⟩
    · rw [← hsplit, startsWith_append (forall_mem_of_all (by decide)) hrest] at hstart
      exact hstart
    · intro c hc
      simpa using forall_take_run _ _ c hc
  · simp at h

/-- Whether `startsTrailer` holds of a line does not depend on what follows the line. -/
theorem startsTrailer_append {line rest : List Char} (hrest : LineEnd rest) :
    startsTrailer (line ++ rest) = startsTrailer line := by
  unfold startsTrailer
  rw [startsWith_append (forall_mem_of_all (by decide)) hrest]
  cases hstart : startsWith "//" line with
  | false => rfl
  | true =>
    obtain ⟨tail, rfl⟩ := startsWith_iff.1 hstart
    have hdrop : ∀ cs, ("//".toList ++ cs).drop 2 = cs := fun _ => rfl
    rw [List.append_assoc, hdrop, hdrop]
    -- the blanks after the slashes end within the line
    have hindent : (tail ++ rest).dropWhile isIndent = tail.dropWhile isIndent ++ rest := by
      rw [List.dropWhile_append]
      split
      · next hnil =>
        rw [List.isEmpty_iff] at hnil
        rw [hnil, List.nil_append]
        cases rest with
        | nil => rfl
        | cons c rest =>
          have hbreak := hrest c rfl
          have hc : isIndent c = false := by
            simp only [isBreak, Bool.or_eq_true, beq_iff_eq] at hbreak
            rcases hbreak with rfl | rfl <;> decide
          simp [hc]
      · rfl
    rw [hindent, startsWith_append (forall_mem_of_all (by decide)) hrest]

/-! ## The trailer -/

/-- One further line of a trailer from its parts. -/
theorem trailerLine_append {start indent line rest : List Char}
    (hstart : start = ['\n'] ∨ start = ['\r', '\n']) (hindent : ∀ c ∈ indent, isIndent c = true)
    (hline : startsWith "//" line = true) (hbreak : ∀ c ∈ line, isBreak c = false)
    (hrest : LineEnd rest) :
    trailerLine (start ++ (indent ++ (line ++ rest)))
      = start.length + indent.length + line.length := by
  have hnewline : newline (start ++ (indent ++ (line ++ rest))) = start.length := by
    rcases hstart with rfl | rfl <;> rfl
  -- the blanks end at the slashes
  have hslash : ∀ c, (line ++ rest).head? = some c → isIndent c = false := by
    obtain ⟨tail, rfl⟩ := startsWith_iff.1 hline
    intro c hc
    obtain rfl : '/' = c := by simpa using hc
    decide
  have hrun : run isIndent (indent ++ (line ++ rest)) = indent.length := by
    rw [run_append hindent, run_eq_zero hslash, Nat.add_zero]
  have hcomment := lineComment_append hline hbreak hrest
  have hpos : 0 < start.length ∧ 0 < line.length := by
    obtain ⟨tail, rfl⟩ := startsWith_iff.1 hline
    rcases hstart with rfl | rfl <;> simp
  simp only [trailerLine, hnewline, List.drop_left, hrun]
  rw [← List.drop_drop, List.drop_left, List.drop_left, hcomment, if_neg (by omega)]

/-- The parts of one further line of a trailer: a line break, blanks and a comment. -/
theorem exists_of_trailerLine {cs : List Char} (h : trailerLine cs ≠ 0) :
    ∃ start indent line rest, cs = start ++ (indent ++ (line ++ rest)) ∧
      (start = ['\n'] ∨ start = ['\r', '\n']) ∧ (∀ c ∈ indent, isIndent c = true) ∧
      startsWith "//" line = true ∧ (∀ c ∈ line, isBreak c = false) ∧ LineEnd rest := by
  simp only [trailerLine] at h
  split at h
  · exact absurd rfl h
  next hparts =>
  simp only [not_or] at hparts
  obtain ⟨hnewline, hcomment⟩ := hparts
  rw [← List.drop_drop] at hcomment
  obtain ⟨line, rest, hrest, hline, hbreak, hend⟩ :=
    exists_of_lineComment (Nat.pos_of_ne_zero hcomment)
  -- a line feed, with a carriage return before it or without one
  have hstart : ∃ start tail, cs = start ++ tail ∧ newline cs = start.length ∧
      (start = ['\n'] ∨ start = ['\r', '\n']) := by
    unfold newline at hnewline ⊢
    split at hnewline
    · exact ⟨['\r', '\n'], _, rfl, rfl, .inr rfl⟩
    · exact ⟨['\n'], _, rfl, rfl, .inl rfl⟩
    · exact absurd rfl hnewline
  obtain ⟨start, tail, rfl, hlen, hstart⟩ := hstart
  rw [hlen, List.drop_left] at hrest
  refine ⟨start, tail.take (run isIndent tail), line, rest, ?_, hstart, forall_take_run _ _, hline,
    hbreak, hend⟩
  rw [← hrest, List.take_append_drop]

/-- Some first characters of a text before a `LineEnd` begin with the end of a line if the text
does. -/
theorem LineEnd.take_append {cs rest : List Char} (hcs : LineEnd cs) (hrest : LineEnd rest)
    (n : Nat) : LineEnd (cs.take n ++ rest) := by
  intro c hc
  cases cs with
  | nil => exact hrest c (by simpa using hc)
  | cons e cs =>
    cases n with
    | zero => exact hrest c (by simpa using hc)
    | succ n => exact hcs c (by simpa using hc)

/-- The further lines of a trailer are found again before every text whose `trailerLine` is
none. -/
theorem trailerLines_take {rest : List Char} (hrest : LineEnd rest) (hzero : trailerLine rest = 0)
    (cs : List Char) : trailerLines cs ≤ cs.length ∧
      trailerLines (cs.take (trailerLines cs) ++ rest) = trailerLines cs := by
  fun_induction trailerLines cs with
  | case1 cs hline =>
    refine ⟨Nat.zero_le _, ?_⟩
    rw [List.take_zero, List.nil_append, trailerLines, if_pos hzero]
  | case2 cs hline ih =>
    obtain ⟨start, indent, line, tail, rfl, hstart, hindent, hslashes, hbreak, hend⟩ :=
      exists_of_trailerLine hline
    -- one line is taken off, as the recursion does
    have hlen := trailerLine_append hstart hindent hslashes hbreak hend
    have hdrop : (start ++ (indent ++ (line ++ tail))).drop
        (start.length + indent.length + line.length) = tail := by
      rw [← List.drop_drop, ← List.drop_drop, List.drop_left, List.drop_left, List.drop_left]
    rw [hlen, hdrop] at ih ⊢
    obtain ⟨hle, ih⟩ := ih
    refine ⟨by simp; omega, ?_⟩
    have htake : (start ++ (indent ++ (line ++ tail))).take
        (start.length + indent.length + line.length + trailerLines tail) ++ rest
        = start ++ (indent ++ (line ++ (tail.take (trailerLines tail) ++ rest))) := by
      rw [Nat.add_assoc, Nat.add_assoc, List.take_length_add_append, List.take_length_add_append,
        List.take_length_add_append]
      simp
    -- and the same line is the first one before `rest`
    have hlen' := trailerLine_append hstart hindent hslashes hbreak
      (hend.take_append hrest (trailerLines tail))
    have hdrop' : (start ++ (indent ++ (line ++ (tail.take (trailerLines tail) ++ rest)))).drop
        (start.length + indent.length + line.length) = tail.take (trailerLines tail) ++ rest := by
      rw [← List.drop_drop, ← List.drop_drop, List.drop_left, List.drop_left, List.drop_left]
    rw [htake, trailerLines, hlen', if_neg (by omega), hdrop', ih]

/-- What may follow the trailer: blanks that begin with the end of its last line and add no further
line to it. -/
def AfterTrailer (rest : List Char) : Prop :=
  LineEnd rest ∧ trailerLine rest = 0 ∧ rest.all Text.isBlank = true

/-- The trailer is found again where nothing but blanks follows, that is before `AfterTrailer`. -/
theorem fixes_outputComment : Fixes AfterTrailer outputComment := by
  intro cs hpos
  unfold outputComment at hpos
  split at hpos
  · next hstart =>
    simp only at hpos
    split at hpos
    · next hblank =>
      -- the first line ends where `restOfLine` does
      have hend : LineEnd (cs.drop (restOfLine cs)) := by
        intro c hc
        simpa using head?_drop_run _ _ c hc
      have hbreak : ∀ c ∈ cs.take (restOfLine cs), isBreak c = false := by
        intro c hc
        simpa using forall_take_run _ _ c hc
      have hscan : outputComment cs = restOfLine cs + trailerLines (cs.drop (restOfLine cs)) := by
        simp only [outputComment, hstart, hblank, if_true]
      have hfirst : restOfLine cs ≤ cs.length := run_le _ _
      have hlen : (cs.take (restOfLine cs)).length = restOfLine cs := by
        rw [List.length_take, Nat.min_eq_left hfirst]
      rw [hscan]
      have hlines := (trailerLines_take lineEnd_nil rfl (cs.drop (restOfLine cs))).1
      rw [List.length_drop] at hlines
      refine ⟨by omega, fun rest hok => ?_⟩
      obtain ⟨hrest, hzero, hall⟩ := hok
      rw [List.take_add, List.append_assoc]
      have hend' := hend.take_append hrest (trailerLines (cs.drop (restOfLine cs)))
      -- before `rest` the first line is the same, and so it begins the trailer again
      have hstart' : startsTrailer (cs.take (restOfLine cs) ++
          ((cs.drop (restOfLine cs)).take (trailerLines (cs.drop (restOfLine cs))) ++ rest))
          = true := by
        rw [startsTrailer_append hend', ← startsTrailer_append hend, List.take_append_drop, hstart]
      simp only [outputComment, hstart', if_true]
      rw [restOfLine_append hbreak hend', List.drop_left, (trailerLines_take hrest hzero _).2,
        ← List.drop_drop, List.drop_left, List.drop_left', if_pos hall, hlen]
      rw [List.length_take, List.length_drop]
      omega
    · simp at hpos
  · simp at hpos

end Diglot.Lexeme

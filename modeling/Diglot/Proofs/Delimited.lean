import Diglot.Proofs.Lossless

/-!
# Strings and regular expressions

The scans for strings and regular expressions go through a text once, and remember no more than a
quote, or whether a class is open. What they find has a grammar that does not speak of scanning:
between two marks stands a row of items, each of which is a character, an escaped character, or a
class with a row of its own. Such a text is found wherever it begins, and nothing else is.

- `Glyph`: a character that stands for itself or is escaped.
- `Between`: a row of items between two marks.
- `IsString`, `IsRegexp`: the texts of strings and of regular expressions without their flags.
- `stringBody_eq_some_iff`, `regexpBody_eq_some_iff`: the scans find these texts.
- `Lexer.delimited_exact`: the tokens are exactly these texts.
-/

namespace Diglot

namespace Lexeme

/-! ## The grammar -/

/-- A character of a delimited text: one that is neither a backslash nor a mark, or one after a
backslash. -/
inductive Glyph (allowed : Char → Prop) (marks : List Char) : List Char → Prop where
  | escaped {c : Char} (hc : allowed c) : Glyph allowed marks ['\\', c]
  | plain {c : Char} (hc : allowed c) (hescape : c ≠ '\\') (hmark : c ∉ marks) :
    Glyph allowed marks [c]

/-- A row of items between two marks. -/
def Between (opening closing : Char) (item : List Char → Prop) (text : List Char) : Prop :=
  ∃ items : List (List Char), (∀ i ∈ items, item i) ∧ text = opening :: (items.flatten ++ [closing])

/-- What stands in a string, as a `Glyph`. Only one between backticks holds line feeds. -/
def StringItem (quote : Char) : List Char → Prop :=
  Glyph (fun c => c = '\n' → quote = '\x60') [quote]

/-- The text of a string, with its quotes: `StringItem`s between them. -/
def IsString (text : List Char) : Prop :=
  ∃ quote, isQuote quote = true ∧ Between quote quote (StringItem quote) text

/-- What stands in a class, as a `Glyph` that is not the closing bracket. -/
def ClassItem : List Char → Prop :=
  Glyph (fun c => isBreak c = false) [']']

/-- What stands in a regular expression: a class of `ClassItem`s, or a character that opens
none. -/
def RegexpItem (text : List Char) : Prop :=
  Glyph (fun c => isBreak c = false) ['/', '['] text ∨ Between '[' ']' ClassItem text

/-- The text of a regular expression, with its slashes and without its flags. It holds at least
one `RegexpItem`, and does not begin with a blank or a star. -/
def IsRegexp (text : List Char) : Prop :=
  ∃ (first : List Char) (items : List (List Char)), RegexpItem first ∧ (∀ i ∈ items, RegexpItem i) ∧
    (∀ c, first.head? = some c → Text.isBlank c = false ∧ c ≠ '*') ∧
    text = '/' :: (first ++ items.flatten ++ ['/'])

/-- A scan that passes over an item passes over a row of them. -/
theorem scan_flatten {scan : List Char → Option Nat} {item : List Char → Prop}
    (hitem : ∀ g, item g → ∀ rest, scan (g ++ rest) = (scan rest).map (· + g.length))
    {items : List (List Char)} (h : ∀ i ∈ items, item i) (rest : List Char) :
    scan (items.flatten ++ rest) = (scan rest).map (· + items.flatten.length) := by
  induction items with
  | nil => simp
  | cons i items ih =>
    rw [List.forall_mem_cons] at h
    rw [List.flatten_cons, List.append_assoc, hitem i h.1, ih h.2, Option.map_map,
      List.length_append]
    congr 1
    funext n
    simp only [Function.comp]
    omega

/-! ## Strings -/

section Strings

variable {quote : Char} {cs g : List Char} {n : Nat}

/-- A `StringItem` is passed over by `stringBody`. -/
theorem stringBody_item (h : StringItem quote g) (rest : List Char) :
    stringBody quote (g ++ rest) = (stringBody quote rest).map (· + g.length) := by
  cases h with
  | @escaped c hc =>
    have hline : (c == '\n' && !isMultiline quote) = false := by
      simpa [isMultiline] using hc
    rw [List.cons_append, List.cons_append, List.nil_append, stringBody.eq_def]
    simp [hline]
  | @plain c hc hescape hmark =>
    have hline : (c == '\n' && !isMultiline quote) = false := by
      simpa [isMultiline] using hc
    rw [List.mem_singleton] at hmark
    rw [List.singleton_append, stringBody.eq_def]
    simp [hescape, hline, hmark]

/-- A quote ends a string, and `stringBody` with it. -/
theorem stringBody_quote (hquote : isQuote quote = true) (rest : List Char) :
    stringBody quote (quote :: rest) = some 1 := by
  simp only [isQuote, Bool.or_eq_true, beq_iff_eq] at hquote
  rw [stringBody.eq_def]
  rcases hquote with (rfl | rfl) | rfl <;> rfl

/-- What a string ends with is the first quote after a row of `StringItem`s. -/
theorem exists_of_stringBody (h : stringBody quote cs = some n) :
    ∃ (items : List (List Char)) (rest : List Char), (∀ i ∈ items, StringItem quote i) ∧
      cs = items.flatten ++ quote :: rest ∧ n = items.flatten.length + 1 := by
  -- what the scan lets through is what a `StringItem` allows
  have hallowed : ∀ c, ¬(c == '\n' && !isMultiline quote) = true → c = '\n' → quote = '\x60' := by
    intro c hc
    simpa [isMultiline] using hc
  fun_induction stringBody quote cs generalizing n with
  | case1 => cases h
  | case2 => cases h
  | case3 => cases h
  | case4 c hc e cs he ih =>
    obtain ⟨m, hm, rfl⟩ := Option.map_eq_some_iff.1 h
    obtain ⟨items, rest, hitems, rfl, rfl⟩ := ih hm
    obtain rfl : c = '\\' := by simpa using hc
    exact ⟨['\\', e] :: items, rest,
      List.forall_mem_cons.2 ⟨.escaped (hallowed e he), hitems⟩, rfl, by simp⟩
  | case5 => cases h
  -- the quote ends the string, with no items left
  | case6 c cs hescape hline hquote =>
    obtain rfl : 1 = n := Option.some.inj h
    obtain rfl : c = quote := by simpa using hquote
    exact ⟨[], cs, by simp, rfl, rfl⟩
  | case7 c cs hescape hline hquote ih =>
    obtain ⟨m, hm, rfl⟩ := Option.map_eq_some_iff.1 h
    obtain ⟨items, rest, hitems, rfl, rfl⟩ := ih hm
    have hitem : StringItem quote [c] :=
      .plain (hallowed c hline) (by simpa using hescape) (by simpa using hquote)
    exact ⟨[c] :: items, rest, List.forall_mem_cons.2 ⟨hitem, hitems⟩, rfl, by simp⟩

/-- **The scan for the body of a string** finds a row of items and a quote. -/
theorem stringBody_eq_some_iff (hquote : isQuote quote = true) :
    stringBody quote cs = some n ↔ ∃ (items : List (List Char)) (rest : List Char),
      (∀ i ∈ items, StringItem quote i) ∧ cs = items.flatten ++ quote :: rest ∧
        n = items.flatten.length + 1 := by
  refine ⟨exists_of_stringBody, ?_⟩
  rintro ⟨items, rest, hitems, rfl, rfl⟩
  rw [scan_flatten (fun _ => stringBody_item) hitems, stringBody_quote hquote, Option.map_some,
    Nat.add_comm]

/-- A text that `IsString` is found where it begins. -/
theorem string_append {text : List Char} (h : IsString text) (rest : List Char) :
    string (text ++ rest) = text.length := by
  obtain ⟨quote, hquote, items, hitems, rfl⟩ := h
  have hbody : stringBody quote (items.flatten ++ quote :: rest) =
      some (items.flatten.length + 1) :=
    (stringBody_eq_some_iff hquote).2 ⟨items, rest, hitems, rfl, rfl⟩
  rw [List.cons_append, List.append_assoc, List.singleton_append]
  simp [string, hquote, hbody, Nat.add_comm]

/-- What `string` finds is a text that `IsString`. -/
theorem exists_isString (h : 0 < string cs) : ∃ text rest, IsString text ∧ cs = text ++ rest := by
  cases cs with
  | nil => simp [string] at h
  | cons quote cs =>
    cases hquote : isQuote quote with
    | false => simp [string, hquote] at h
    | true =>
      cases hbody : stringBody quote cs with
      | none => simp [string, hquote, hbody] at h
      | some n =>
        obtain ⟨items, rest, hitems, rfl, -⟩ := exists_of_stringBody hbody
        exact ⟨_, rest, ⟨quote, hquote, items, hitems, rfl⟩, by simp⟩

end Strings

/-! ## Regular expressions -/

section Regexps

variable {inClass : Bool} {c : Char} {cs g : List Char} {n : Nat}

/-- An escaped character is passed over, within a class or outside one. -/
theorem regexpBody_escaped (hc : isBreak c = false) (rest : List Char) :
    regexpBody inClass ('\\' :: c :: rest) = (regexpBody inClass rest).map (· + 2) := by
  have hescape : isBreak '\\' = false := by decide
  rw [regexpBody.eq_def]
  simp [hescape, hc]

/-- Any other character is passed over, and tells whether a class is open after it. -/
theorem regexpBody_plain (hc : isBreak c = false) (hescape : c ≠ '\\')
    (hslash : c = '/' → inClass = true) (rest : List Char) :
    regexpBody inClass (c :: rest)
      = (regexpBody (c == '[' || c != ']' && inClass) rest).map (· + 1) := by
  have hopen : (c == '/' && !inClass) = false := by
    simpa using hslash
  rw [regexpBody.eq_def]
  simp [hc, hescape, hopen]

theorem regexpBody_slash (rest : List Char) : regexpBody false ('/' :: rest) = some 1 := by
  rw [regexpBody.eq_def]
  rfl

/-- A bracket opens a class: `regexpBody` goes on within it. -/
theorem regexpBody_open (rest : List Char) :
    regexpBody false ('[' :: rest) = (regexpBody true rest).map (· + 1) :=
  regexpBody_plain (by decide) (by decide) (by decide) rest

/-- A bracket closes a class. -/
theorem regexpBody_close (rest : List Char) :
    regexpBody true (']' :: rest) = (regexpBody false rest).map (· + 1) :=
  regexpBody_plain (by decide) (by decide) (by decide) rest

/-- A `ClassItem` is passed over while a class is open. -/
theorem regexpBody_classItem (h : ClassItem g) (rest : List Char) :
    regexpBody true (g ++ rest) = (regexpBody true rest).map (· + g.length) := by
  cases h with
  | escaped hc => exact regexpBody_escaped hc rest
  | @plain c hc hescape hmark =>
    have hopen : (c == '[' || c != ']' && true) = true := by simp_all
    rw [List.singleton_append, regexpBody_plain hc hescape fun _ => rfl, hopen]
    rfl

/-- A `RegexpItem` is passed over. Where it is a class, the scan comes out of it again. -/
theorem regexpBody_item (h : RegexpItem g) (rest : List Char) :
    regexpBody false (g ++ rest) = (regexpBody false rest).map (· + g.length) := by
  rcases h with h | ⟨items, hitems, rfl⟩
  · cases h with
    | escaped hc => exact regexpBody_escaped hc rest
    | @plain c hc hescape hmark =>
      simp only [List.mem_cons, List.not_mem_nil, or_false, not_or] at hmark
      have hclosed : (c == '[' || c != ']' && false) = false := by simp [hmark.2]
      rw [List.singleton_append, regexpBody_plain hc hescape fun h => absurd h hmark.1, hclosed]
      rfl
  · rw [List.cons_append, List.append_assoc, List.singleton_append, regexpBody_open,
      scan_flatten (fun _ => regexpBody_classItem) hitems, regexpBody_close]
    simp only [Option.map_map, List.length_cons, List.length_append, List.length_nil]
    congr 1
    funext n
    simp only [Function.comp]
    omega

/-- What is left to be found from a place in a regular expression on, where a class may be open.
This is the invariant of `regexpBody`, whose states it follows. -/
def ClosesWith : Bool → List Char → Prop
  | false, text => ∃ items : List (List Char), (∀ i ∈ items, RegexpItem i) ∧
      text = items.flatten ++ ['/']
  | true, text => ∃ inner items : List (List Char), (∀ i ∈ inner, ClassItem i) ∧
      (∀ i ∈ items, RegexpItem i) ∧ text = inner.flatten ++ ']' :: (items.flatten ++ ['/'])

theorem ClosesWith.escaped {text : List Char} (h : ClosesWith inClass text)
    (hc : isBreak c = false) : ClosesWith inClass ('\\' :: c :: text) := by
  cases inClass with
  | false =>
    obtain ⟨items, hitems, rfl⟩ := h
    exact ⟨['\\', c] :: items, List.forall_mem_cons.2 ⟨.inl (.escaped hc), hitems⟩, rfl⟩
  | true =>
    obtain ⟨inner, items, hinner, hitems, rfl⟩ := h
    exact ⟨['\\', c] :: inner, items, List.forall_mem_cons.2 ⟨.escaped hc, hinner⟩, hitems, rfl⟩

/-- One more character in front of what `ClosesWith` tells: it opens a class, closes one, or
stands for itself. -/
theorem ClosesWith.plain {text : List Char}
    (h : ClosesWith (c == '[' || c != ']' && inClass) text) (hc : isBreak c = false)
    (hescape : c ≠ '\\') (hslash : c = '/' → inClass = true) : ClosesWith inClass (c :: text) := by
  cases inClass with
  | false =>
    -- the class that is opened here is the one that is closed in what follows
    by_cases hopen : c = '['
    · subst hopen
      obtain ⟨inner, items, hinner, hitems, rfl⟩ := h
      have hclass : RegexpItem ('[' :: (inner.flatten ++ [']'])) := .inr ⟨inner, hinner, rfl⟩
      exact ⟨_ :: items, List.forall_mem_cons.2 ⟨hclass, hitems⟩, by simp⟩
    · have hclosed : (c == '[' || c != ']' && false) = false := by simp [hopen]
      rw [hclosed] at h
      obtain ⟨items, hitems, rfl⟩ := h
      have hitem : RegexpItem [c] := by
        refine .inl (.plain hc hescape ?_)
        simpa [hopen] using fun h => absurd (hslash h) (by decide)
      exact ⟨[c] :: items, List.forall_mem_cons.2 ⟨hitem, hitems⟩, rfl⟩
  | true =>
    by_cases hclose : c = ']'
    · subst hclose
      obtain ⟨items, hitems, rfl⟩ := h
      exact ⟨[], items, by simp, hitems, rfl⟩
    · have hopen : (c == '[' || c != ']' && true) = true := by simp [hclose]
      rw [hopen] at h
      obtain ⟨inner, items, hinner, hitems, rfl⟩ := h
      exact ⟨[c] :: inner, items,
        List.forall_mem_cons.2 ⟨.plain hc hescape (by simpa using hclose), hinner⟩, hitems, rfl⟩

/-- What `regexpBody` takes is what `ClosesWith` tells. -/
theorem closesWith_of_regexpBody (h : regexpBody inClass cs = some n) :
    n ≤ cs.length ∧ ClosesWith inClass (cs.take n) := by
  refine ⟨(regexpBody_take h).2.1, ?_⟩
  fun_induction regexpBody inClass cs generalizing n with
  | case1 => cases h
  | case2 => cases h
  | case3 => cases h
  | case4 => cases h
  | case5 inClass c hb hc e cs he ih =>
    obtain ⟨m, hm, rfl⟩ := Option.map_eq_some_iff.1 h
    obtain rfl : c = '\\' := by simpa using hc
    exact (ih hm).escaped (by simpa using he)
  | case6 inClass c cs hb hc hslash =>
    obtain rfl : 1 = n := Option.some.inj h
    obtain ⟨rfl, rfl⟩ : c = '/' ∧ inClass = false := by simpa using hslash
    exact ⟨[], by simp, rfl⟩
  | case7 inClass c cs hb hc hslash ih =>
    obtain ⟨m, hm, rfl⟩ := Option.map_eq_some_iff.1 h
    exact (ih hm).plain (by simpa using hb) (by simpa using hc) (by simpa using hslash)

/-- **The scan for the body of a regular expression** finds a row of items and a slash. -/
theorem regexpBody_eq_some_iff :
    regexpBody false cs = some n ↔ ∃ (items : List (List Char)) (rest : List Char),
      (∀ i ∈ items, RegexpItem i) ∧ cs = items.flatten ++ '/' :: rest ∧
        n = items.flatten.length + 1 := by
  constructor
  · intro h
    obtain ⟨hle, items, hitems, htext⟩ := closesWith_of_regexpBody h
    refine ⟨items, cs.drop n, hitems, ?_, ?_⟩
    · have hsplit := List.take_append_drop n cs
      rw [htext] at hsplit
      simpa using hsplit.symm
    · have hlength := congrArg List.length htext
      rw [List.length_take, Nat.min_eq_left hle] at hlength
      simpa using hlength
  · rintro ⟨items, rest, hitems, rfl, rfl⟩
    rw [scan_flatten (fun _ => regexpBody_item) hitems, regexpBody_slash, Option.map_some,
      Nat.add_comm]

/-- A `RegexpItem` begins with something other than a slash. -/
theorem RegexpItem.exists_cons (h : RegexpItem g) : ∃ c tail, g = c :: tail ∧ c ≠ '/' := by
  rcases h with h | ⟨items, -, rfl⟩
  · cases h with
    | escaped hc => exact ⟨_, _, rfl, by decide⟩
    | plain hc hescape hmark => exact ⟨_, _, rfl, fun hslash => hmark (by simp [hslash])⟩
  · exact ⟨_, _, rfl, by decide⟩

/-- A text that `IsRegexp` is found where it begins, with all the flags that follow it. It never
begins with two slashes. -/
theorem regexp_append {text : List Char} (h : IsRegexp text) (rest : List Char) :
    regexp (text ++ rest) = text.length + run isFlag rest ∧
      startsWith "//" (text ++ rest) = false := by
  obtain ⟨first, items, hfirst, hitems, hhead, rfl⟩ := h
  obtain ⟨c, tail, rfl, hc⟩ := hfirst.exists_cons
  obtain ⟨hblank, hstar⟩ := hhead c rfl
  have htext : '/' :: (c :: tail ++ items.flatten ++ ['/']) ++ rest
      = '/' :: c :: (tail ++ items.flatten ++ '/' :: rest) := by
    simp
  -- the items are found by `regexpBody`, and the flags come after them
  have hbody : regexpBody false (c :: (tail ++ items.flatten ++ '/' :: rest))
      = some ((c :: tail ++ items.flatten).length + 1) :=
    regexpBody_eq_some_iff.2
      ⟨(c :: tail) :: items, rest, List.forall_mem_cons.2 ⟨hfirst, hitems⟩, rfl, rfl⟩
  have hflags : (c :: (tail ++ items.flatten ++ '/' :: rest)).drop
      ((c :: tail ++ items.flatten).length + 1) = rest := by
    rw [← List.drop_drop, ← List.cons_append, ← List.cons_append, List.drop_left]
    rfl
  rw [htext, regexp_of_regexpBody (by simp [hblank, hstar]) hbody, hflags]
  refine ⟨?_, ?_⟩
  · simp only [List.length_cons, List.length_append, List.length_nil]
    omega
  · simp [startsWith, List.isPrefixOf, Ne.symm hc]

/-- What `regexp` finds is a text that `IsRegexp`, unless it begins with two slashes. -/
theorem exists_isRegexp (h : 0 < regexp cs) (hslashes : startsWith "//" cs = false) :
    ∃ text rest, IsRegexp text ∧ cs = text ++ rest := by
  obtain ⟨c, tail, n, rfl, hc, hbody⟩ := exists_of_regexp h
  obtain ⟨items, rest, hitems, hsplit, -⟩ := regexpBody_eq_some_iff.1 hbody
  cases items with
  | nil =>
    obtain ⟨rfl, -⟩ := List.cons.inj hsplit
    simp [startsWith, List.isPrefixOf] at hslashes
  | cons first items =>
    rw [List.forall_mem_cons] at hitems
    obtain ⟨c', tail', rfl, -⟩ := hitems.1.exists_cons
    obtain ⟨rfl, htail⟩ := List.cons.inj hsplit
    refine ⟨_, rest, ⟨c :: tail', items, hitems.1, hitems.2, ?_, rfl⟩, ?_⟩
    · intro e he
      obtain rfl : c = e := by simpa using he
      simpa using hc
    · simpa using htail

end Regexps

/-! ## The rules -/

section Rules

variable {d : Dialect} {cs : List Char}

theorem IsString.ne_nil {text : List Char} (h : IsString text) : text ≠ [] := by
  obtain ⟨quote, -, items, -, rfl⟩ := h
  exact List.cons_ne_nil _ _

theorem IsRegexp.ne_nil {text : List Char} (h : IsRegexp text) : text ≠ [] := by
  obtain ⟨first, items, -, -, -, rfl⟩ := h
  exact List.cons_ne_nil _ _

/-- A kind that only one scan finds is found by `classify` only where that scan finds something. -/
theorem pos_of_classify {k : TokenKind} {scan : Scan} (hk : k ≠ .unknown)
    (hrules : ∀ r ∈ rules d, r.kind = k → r.scan = scan) (h : (classify d cs).1 = k) :
    0 < scan cs := by
  unfold classify at h
  cases hfind : (rules d).findSome? fun r => r.find? cs with
  | none =>
    rw [hfind] at h
    exact absurd h.symm hk
  | some kn =>
    rw [hfind] at h
    -- the rule that has found the token is one of that kind
    obtain ⟨r, hr, hfound⟩ := List.exists_of_findSome?_eq_some hfind
    by_cases hzero : r.scan cs = 0
    · rw [Rule.find?_eq_none_iff.2 hzero] at hfound
      cases hfound
    · have hpos := Nat.pos_of_ne_zero hzero
      rw [Rule.find?_of_pos hpos] at hfound
      obtain rfl := Option.some.inj hfound
      rwa [hrules r hr h] at hpos

/-- Strings, bad strings and regular expressions have one of the `rules` each. -/
theorem scan_of_kind : ∀ r ∈ rules d, (r.kind = .string → r.scan = string) ∧
    (r.kind = .badString → r.scan = badString) ∧ (r.kind = .regexp → r.scan = regexp) := by
  intro r hr
  simp only [rules, List.mem_append, List.mem_map] at hr
  rcases hr with (hr | ⟨k, -, rfl⟩) | hr
  · revert r
    simp [earlyRules, Rule.punct]
  · simp [Rule.keyword]
  · revert r
    simp [lateRules, Rule.punct]

/-- A quote that begins no `string` begins a bad one. -/
theorem classify_badString (d : Dialect) {quote : Char} (hquote : isQuote quote = true)
    (h : string (quote :: cs) = 0) :
    classify d (quote :: cs) = (.badString, badString (quote :: cs)) := by
  have hpos : 0 < badString (quote :: cs) := by
    simp only [isQuote, Bool.or_eq_true, beq_iff_eq] at hquote
    rcases hquote with (rfl | rfl) | rfl <;> simp [badString, isQuote, restOfLine, run, isBreak]
  simp only [isQuote, Bool.or_eq_true, beq_iff_eq] at hquote
  simp only [classify, rules, earlyRules, List.cons_append, List.findSome?_cons]
  rcases hquote with (rfl | rfl) | rfl
  all_goals
    iterate 6 rw [Rule.find?_eq_none_iff.2 rfl]
    rw [Rule.find?_eq_none_iff.2 h, Rule.find?_of_pos hpos]
    rfl

/-- **A string is the first token** exactly if the text begins with one. -/
theorem classify_string_iff {n : Nat} :
    classify d cs = (.string, n) ↔ ∃ text, IsString text ∧ text <+: cs ∧ n = text.length := by
  constructor
  · intro h
    have hpos := pos_of_classify (by decide) (fun r hr => (scan_of_kind r hr).1)
      (congrArg Prod.fst h)
    obtain ⟨text, rest, htext, rfl⟩ := exists_isString hpos
    have hlength := congrArg Prod.snd ((classify_string d hpos).symm.trans h)
    exact ⟨text, htext, List.prefix_append .., hlength.symm.trans (string_append htext rest)⟩
  · rintro ⟨text, htext, ⟨rest, rfl⟩, rfl⟩
    have hscan := string_append htext rest
    have hpos := List.length_pos_iff.2 htext.ne_nil
    rw [classify_string d (by omega), hscan]

/-- A bad string is the first token exactly if the text begins with a quote, and with nothing
that `IsString`. -/
theorem classify_badString_iff : (classify d cs).1 = .badString ↔
    cs.head?.any isQuote = true ∧ ∀ text, IsString text → ¬text <+: cs := by
  constructor
  · intro h
    have hpos := pos_of_classify (by decide) (fun r hr => (scan_of_kind r hr).2.1) h
    refine ⟨?_, fun text htext hlead => ?_⟩
    · cases cs with
      | nil => simp [badString] at hpos
      | cons quote cs =>
        cases hquote : isQuote quote with
        | false => simp [badString, hquote] at hpos
        | true => simpa using hquote
    · rw [classify_string_iff.2 ⟨text, htext, hlead, rfl⟩] at h
      cases h
  · rintro ⟨hquote, hnone⟩
    cases cs with
    | nil => simp at hquote
    | cons quote cs =>
      -- the rule for strings comes first, so it must find nothing
      have hzero : string (quote :: cs) = 0 := by
        refine Nat.eq_zero_of_not_pos fun hpos => ?_
        obtain ⟨text, rest, htext, hsplit⟩ := exists_isString hpos
        exact hnone text htext ⟨rest, hsplit.symm⟩
      rw [classify_badString d (by simpa using hquote) hzero]

/-- **A regular expression is the first token** exactly if the text begins with one, and the flags
after it belong to the token. -/
theorem classify_regexp_iff {n : Nat} : classify d cs = (.regexp, n) ↔
    ∃ text, IsRegexp text ∧ text <+: cs ∧ n = text.length + run isFlag (cs.drop text.length) := by
  constructor
  · intro h
    have hpos := pos_of_classify (by decide) (fun r hr => (scan_of_kind r hr).2.2)
      (congrArg Prod.fst h)
    -- two slashes begin a comment, which comes before regular expressions
    have hslashes : startsWith "//" cs = false := by
      cases hstart : startsWith "//" cs with
      | false => rfl
      | true =>
        have hcomment := classify_slashes d hstart
        simp [h] at hcomment
    obtain ⟨text, rest, htext, rfl⟩ := exists_isRegexp hpos hslashes
    have hlength := congrArg Prod.snd ((classify_regexp d hpos hslashes).symm.trans h)
    refine ⟨text, htext, List.prefix_append .., ?_⟩
    rw [List.drop_left]
    exact hlength.symm.trans (regexp_append htext rest).1
  · rintro ⟨text, htext, ⟨rest, rfl⟩, rfl⟩
    obtain ⟨hscan, hslashes⟩ := regexp_append htext rest
    have hpos := List.length_pos_iff.2 htext.ne_nil
    rw [classify_regexp d (by omega) hslashes, hscan, List.drop_left]

end Rules

end Lexeme

/-! ## The tokens -/

namespace Lexer

open Lexeme

variable {l : Lexer}

/-- The token that a `Step` reads has the characters at the start of the text. -/
theorem Step.text_eq {t : Token} {l' : Lexer} (h : l.Step t l') {text : List Char}
    (hlead : text <+: l.rest) (hlength : t.text.length = text.length) : t.text.toList = text := by
  have hown : t.text.toList <+: l.rest := ⟨l'.rest, h.rest.symm⟩
  rw [← String.length_toList] at hlength
  exact (List.prefix_of_prefix_length_le hown hlead (Nat.le_of_eq hlength)).eq_of_length hlength

/-- **Strings and regular expressions are recognised exactly**, wherever a token begins: a token is
a string exactly if its text is that of a string at the start of what is left, a bad string if a
quote stands there and no string, and a regular expression if one stands there. Its text is then
that of the regular expression and as many flags as follow. Nothing has to be said of comments: no
text that begins one has the form of a regular expression. -/
theorem delimited_exact (l : Lexer) :
    (∀ w : String, l.scan.1.kind = .string ∧ l.scan.1.text = w ↔
      IsString w.toList ∧ w.toList <+: l.rest) ∧
    (l.scan.1.kind = .badString ↔
      l.rest.head?.any isQuote = true ∧ ∀ text, IsString text → ¬text <+: l.rest) ∧
    (l.scan.1.kind = .regexp ↔ ∃ text, IsRegexp text ∧ text <+: l.rest) ∧
    ∀ text, IsRegexp text → text <+: l.rest →
      l.scan.1.text = String.ofList (text ++ (l.rest.drop text.length).takeWhile isFlag) := by
  by_cases hrest : l.rest = []
  · -- at the end of the text there is nothing of the kind
    have hkind : l.scan.1.kind = .eof := by
      rw [scan_of_rest_eq_nil hrest]
      rfl
    rw [hkind, hrest]
    simp only [List.prefix_nil]
    refine ⟨fun w => ⟨?_, ?_⟩, ⟨?_, ?_⟩, ⟨?_, ?_⟩, ?_⟩
    · rintro ⟨h, -⟩
      cases h
    · rintro ⟨h, hnil⟩
      exact absurd hnil h.ne_nil
    · intro h
      cases h
    · rintro ⟨h, -⟩
      cases h
    · intro h
      cases h
    · rintro ⟨text, h, hnil⟩
      exact absurd hnil h.ne_nil
    · exact fun text h hnil => absurd hnil h.ne_nil
  have hstep := scan_step hrest
  have hfound := hstep.found
  refine ⟨fun w => ⟨?_, ?_⟩, ?_, ⟨?_, ?_⟩, ?_⟩
  · rintro ⟨hkind, rfl⟩
    rw [hkind] at hfound
    obtain ⟨text, htext, hlead, hlength⟩ := classify_string_iff.1 hfound
    rw [hstep.text_eq hlead hlength]
    exact ⟨htext, hlead⟩
  · rintro ⟨htext, hlead⟩
    rw [classify_string_iff.2 ⟨_, htext, hlead, rfl⟩, Prod.mk.injEq] at hfound
    exact ⟨hfound.1.symm, String.toList_inj.1 (hstep.text_eq hlead hfound.2.symm)⟩
  · rw [← classify_badString_iff, hfound]
  · intro hkind
    rw [hkind] at hfound
    obtain ⟨text, htext, hlead, -⟩ := classify_regexp_iff.1 hfound
    exact ⟨text, htext, hlead⟩
  · rintro ⟨text, htext, hlead⟩
    rw [classify_regexp_iff.2 ⟨text, htext, hlead, rfl⟩, Prod.mk.injEq] at hfound
    exact hfound.1.symm
  · intro text htext hlead
    rw [classify_regexp_iff.2 ⟨text, htext, hlead, rfl⟩, Prod.mk.injEq] at hfound
    obtain ⟨rest, hsplit⟩ := hlead
    rw [← hsplit, List.drop_left] at hfound ⊢
    have hflags : text ++ rest.takeWhile isFlag <+: l.rest := by
      rw [← hsplit, List.prefix_append_right_inj]
      exact List.takeWhile_prefix ..
    rw [← String.toList_inj, String.toList_ofList]
    exact hstep.text_eq hflags (by rw [← hfound.2, List.length_append]; rfl)

/-- A slash in a class and an escaped one, and then two flags and a letter that is none. -/
theorem delimited_exact_slashes :
    let l := ofText .brace "" "/[/]\\//gix"
    IsRegexp "/[/]\\//".toList ∧ "/[/]\\//".toList <+: l.rest ∧
      l.scan.1.kind = .regexp ∧ l.scan.1.text = "/[/]\\//gi" := by
  intro l
  have hclass : RegexpItem ['[', '/', ']'] :=
    .inr ⟨[['/']], List.forall_mem_singleton.2 (.plain (by decide) (by decide) (by decide)), rfl⟩
  have hescaped : RegexpItem ['\\', '/'] := .inl (.escaped (by decide))
  have hregexp : IsRegexp "/[/]\\//".toList := by
    refine ⟨_, [_], hclass, List.forall_mem_singleton.2 hescaped, ?_, rfl⟩
    rintro c ⟨⟩
    decide
  have hlead : "/[/]\\//".toList <+: l.rest := ⟨"gix".toList, rfl⟩
  obtain ⟨-, -, hkind, htext⟩ := delimited_exact l
  exact ⟨hregexp, hlead, hkind.2 ⟨_, hregexp, hlead⟩, htext _ hregexp hlead⟩

end Lexer

end Diglot

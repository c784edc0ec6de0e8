import Diglot.Proofs.Headings

/-!
# The text of an outline tells its lines

A sketch is an outline before it is written: a heading with what stands below it, and so on. The
text of a sketch has no marks but line feeds and blanks, and both can stand within a line too, where
a string with line feeds is spelled in it. All the same the lines can be told apart. A line ends
with the first string in it, and without one at a line feed, but for the lines of comments, regular
expressions and trailers, which can have quotes in them and no line feeds. The blanks that the next
line begins with say how deep it stands, as no line begins with a blank of its own.

- `Outline.titleLength`, `Heading.Genuine.titleLength_title`: where a line ends.
- `Sketch`, `Sketch.lines`: sketches and their lines.
- `Sketch.text_append_inj`: what stands at a depth is found again, up to a line that stands less
  deep.
- `Sketch.eq_of_render_eq`: a sketch is found again from its text.
-/

namespace Diglot

open Lexeme Outline

/-! ## Where a line ends -/

namespace Outline

/-- The characters that neither end a line nor begin a string. -/
def isUnquoted (c : Char) : Bool :=
  c != '\n' && !isQuote c

/-- Text without line feeds and quotes. -/
def Unquoted (text : String) : Prop :=
  ∀ c ∈ text.toList, isUnquoted c = true

instance (text : String) : Decidable (Unquoted text) :=
  decidable_of_iff _ List.all_eq_true

@[simp] theorem unquoted_append {a b : String} : Unquoted (a ++ b) ↔ Unquoted a ∧ Unquoted b := by
  simp [Unquoted, or_imp, forall_and]

theorem isUnquoted_of_isWordChar {c : Char} (h : isWordChar c = true) : isUnquoted c = true := by
  have hquote := isQuote_of_isWordChar h
  have hfeed : c ≠ '\n' := by
    rintro rfl
    exact absurd h (by decide)
  simp [isUnquoted, hquote, hfeed]

theorem unquoted_of_isWordChar {text : String} (h : ∀ c ∈ text.toList, isWordChar c = true) :
    Unquoted text :=
  fun c hc => isUnquoted_of_isWordChar (h c hc)

/-- Names and the commas between them are `Unquoted`. -/
theorem unquoted_names {ns : List String} (h : ∀ n ∈ ns, IsWord n) : Unquoted (names ns) := by
  have hmore : Unquoted (moreNames ns) := by
    induction ns with
    | nil => decide
    | cons n ns ih =>
      simp only [List.mem_cons, forall_eq_or_imp] at h
      simp +decide [moreNames, unquoted_of_isWordChar h.1.2, ih h.2]
  cases ns with
  | nil => decide
  | cons n ns => simp_all [names_cons, moreNames]

/-- `Unquoted` text, but for a string at its end. There need not be one. -/
def Delimited (text : String) : Prop :=
  ∃ lead lexeme, text = lead ++ lexeme ∧ Unquoted lead ∧ string lexeme.toList = lexeme.length

theorem Unquoted.delimited {text : String} (h : Unquoted text) : Delimited text :=
  ⟨text, "", by simp, h, rfl⟩

theorem delimited_of_string {text : String} (h : string text.toList = text.length) :
    Delimited text :=
  ⟨"", text, by simp, by decide, h⟩

/-- More `Unquoted` text may come first. -/
theorem Delimited.append_left {lead text : String} (h : Delimited text) (hlead : Unquoted lead) :
    Delimited (lead ++ text) := by
  obtain ⟨more, lexeme, rfl, hmore, hlexeme⟩ := h
  exact ⟨lead ++ more, lexeme, by rw [String.append_assoc], unquoted_append.2 ⟨hlead, hmore⟩,
    hlexeme⟩

/-- `string` finds a string again before a line feed, and none where there is none. -/
theorem string_append_lineFeed {text : String} (h : string text.toList = text.length)
    (rest : List Char) : string (text.toList ++ '\n' :: rest) = text.length := by
  by_cases hempty : text = ""
  · subst hempty
    rfl
  · exact fixes_string.append hempty h trivial

/-- Where a string begins or a line ends, `Unquoted` text ends. -/
theorem stops_isUnquoted {text : String} (h : string text.toList = text.length) (rest : List Char) :
    Stops isUnquoted (text.toList ++ '\n' :: rest) := by
  by_cases hempty : text = ""
  · subst hempty
    exact stops_cons (by decide) rest
  · obtain ⟨q, cs, hcons, hq⟩ := exists_isQuote_of_string hempty h
    rw [hcons]
    exact stops_cons (by simp [isUnquoted, hq]) _

/-- The first words of the lines that stay on one line, whatever quotes are in them. -/
def oneLineWords : List String :=
  ["comment", "regexp", "trailer"]

/-- How many characters the line at the start of a text has. A line ends after the first string
in it, and without a string at a line feed; those of `oneLineWords` end at the line feed in any
case. -/
def titleLength (cs : List Char) : Nat :=
  if firstWord cs ∈ oneLineWords then run (· != '\n') cs
  else run isUnquoted cs + string (cs.drop (run isUnquoted cs))

/-- The end of a `Delimited` line is found, whatever follows the line feed. -/
theorem Delimited.length_eq {text : String} (h : Delimited text) (rest : List Char) :
    run isUnquoted (text.toList ++ '\n' :: rest) +
      string ((text.toList ++ '\n' :: rest).drop (run isUnquoted (text.toList ++ '\n' :: rest))) =
        text.toList.length := by
  obtain ⟨lead, lexeme, rfl, hlead, hlexeme⟩ := h
  have hrun : run isUnquoted ((lead ++ lexeme).toList ++ '\n' :: rest) = lead.toList.length := by
    rw [String.toList_append, List.append_assoc, run_append hlead,
      run_eq_zero (stops_isUnquoted hlexeme rest), Nat.add_zero]
  rw [hrun, String.toList_append, List.append_assoc, List.drop_left,
    string_append_lineFeed hlexeme, List.length_append, ← String.length_toList]

end Outline

theorem isUnquoted_of_isNumberChar {c : Char} (h : isNumberChar c = true) :
    isUnquoted c = true := by
  simp only [isNumberChar, Bool.or_eq_true, beq_iff_eq] at h
  rcases h with ((((h | rfl) | rfl) | rfl) | rfl) | rfl
  · exact isUnquoted_of_isWordChar (isWordChar_of_isDigit h)
  all_goals decide

/-- The spelling of a literal is a string, or has no quotes in it, unless it is a regular
expression. -/
theorem Literal.delimited_text {d : Dialect} {v : Literal} (hv : Genuine d v.text v.kind)
    (hword : v.word ∉ oneLineWords) : Delimited v.text := by
  cases v with
  | boolean value text => exact (unquoted_of_isWordChar (isWord_boolean hv).2).delimited
  | fixnum value text =>
    exact (unquoted_of_isWordChar fun c hc => isWordChar_of_isDigit (hv.2 c hc)).delimited
  | flonum value text =>
    have hnumber := keeps_flonum.forall_mem hv.2
    exact Unquoted.delimited fun c hc => isUnquoted_of_isNumberChar (hnumber c hc)
  | string value text => exact delimited_of_string hv.2
  | regexp value text => exact absurd (by simp [word, oneLineWords]) hword

/-- So is that of a key. -/
theorem Key.delimited_text {d : Dialect} {key : Key} (h : (Heading.pair key).Genuine d) :
    Delimited key.text := by
  cases key with
  | symbol name =>
    exact (unquoted_of_isWordChar (h.2.1 name (by simp [Key.names])).word.2).delimited
  | string value text => exact delimited_of_string h.1.2

/-- An import has names and, at its end, a path that is a string. -/
theorem Import.delimited_detail {d : Dialect} {i : Import} (hi : i.Genuine d) :
    Delimited (Heading.imported i).detail := by
  cases i with
  | names ns path =>
    refine (delimited_of_string hi.2.2).append_left ?_
    simp +decide [unquoted_names (forall_isWord hi.1)]
  | whole name path =>
    refine (delimited_of_string hi.2.2).append_left ?_
    simp +decide [unquoted_of_isWordChar hi.1.word.2]

/-- What is declared has names and words only. -/
theorem Declared.unquoted {d : Dialect} {x : Declared} (hx : ∀ n ∈ x.names, IsName d n) :
    Unquoted x.word ∧ Unquoted x.detail := by
  constructor
  · have hall : ∀ w ∈ declaredWords, Unquoted w := by decide
    exact hall _ x.word_mem
  · cases x with
    | function n ps isAsync =>
      have hn := unquoted_of_isWordChar (hx n (by simp [names])).word.2
      have hps : Unquoted (Outline.names ps) :=
        unquoted_names fun p hp => (hx p (by simp [names, hp])).word
      cases isAsync <;> simp +decide [detail, hn, hps]
    | var k n =>
      have hn := unquoted_of_isWordChar (hx n (by simp [names])).word.2
      simp +decide [detail, hn]
    | vars k ns =>
      have hns : Unquoted (Outline.names ns) := unquoted_names (forall_isWord hx)
      simp +decide [detail, hns]

namespace Heading

theorem unquoted_loopNames {d : Dialect} {k : Option VarKeyword} {ns : List String} {b : Bool}
    (hns : ∀ n ∈ ns, IsName d n) : Unquoted (loopNames k ns b) := by
  have hnone : Unquoted (loopNames none ns b) := by
    have hnames := unquoted_names (forall_isWord hns)
    cases b <;> simp +decide [loopNames_none, hnames]
  cases k with
  | none => exact hnone
  | some k =>
    have hk := unquoted_of_isWordChar k.isWordChar_spelling
    simp +decide [loopNames_some, hk, hnone]

/-- What follows the first word of a heading is `Delimited`, if the line is not of
`oneLineWords`. -/
theorem Genuine.delimited_detail {d : Dialect} {h : Heading} (hh : h.Genuine d)
    (hword : h.word ∉ oneLineWords) : Delimited h.detail := by
  have hblank : Unquoted " " := by decide
  cases h with
  | mark m => exact @Unquoted.delimited "" (by decide)
  | symbol n => exact (unquoted_of_isWordChar hh.2).delimited.append_left hblank
  | literal v => exact (Literal.delimited_text hh.1 hword).append_left hblank
  | unary o => exact Unquoted.delimited (by cases o <;> decide)
  | step o => exact Unquoted.delimited (by cases o <;> decide)
  | binary o => exact Unquoted.delimited (by cases o <;> decide)
  | list comma => exact Unquoted.delimited (by cases comma <;> decide)
  | function n ps =>
    have hn : ∀ x ∈ n, IsWord x := fun x hx => (hh x (by simp [Option.mem_def.1 hx])).word
    have hps : Unquoted (Outline.names ps) :=
      unquoted_names fun p hp => (hh p (by simp [hp])).word
    refine Unquoted.delimited ?_
    simp +decide [detail, unquoted_of_isWordChar (isWordChar_getD hn), hps]
  | arrow ps | arrowBlock ps =>
    refine Unquoted.delimited ?_
    simp +decide [detail, unquoted_names (forall_isWord hh)]
  | pair k => exact (Key.delimited_text hh).append_left hblank
  | forLoop k ns b =>
    refine Unquoted.delimited ?_
    simp +decide [detail, unquoted_loopNames hh.2]
  | declared exported x =>
    have hx := Declared.unquoted hh
    refine Unquoted.delimited ?_
    cases exported <;> simp +decide [detail, hx.1, hx.2]
  | comment c => exact absurd (by simp [word, oneLineWords]) hword
  | moduleName n => exact (unquoted_of_isWordChar hh.word.2).delimited.append_left hblank
  | imported i => exact Import.delimited_detail hh
  | trailer t => exact absurd (by simp [word, oneLineWords]) hword

/-- The lines of `oneLineWords`, of comments, regular expressions and trailers, have no line
feed. -/
theorem Genuine.ne_lineFeed {d : Dialect} {h : Heading} (hh : h.Genuine d)
    (hword : h.word ∈ oneLineWords) : ∀ c ∈ h.title.toList, (c != '\n') = true := by
  -- only three sorts of headings begin with such a word
  have hfamily : h.family ∈ ["comment", "literal", "trailer"] := by
    have hall : ∀ w ∈ oneLineWords, familyOf w ∈ ["comment", "literal", "trailer"] := by decide
    rw [← familyOf_word]
    exact hall _ hword
  have htitle {lead text : String} (hlead : '\n' ∉ lead.toList)
      (htext : ∀ c ∈ text.toList, c ≠ '\n') : ∀ c ∈ (lead ++ text).toList, (c != '\n') = true := by
    intro c hc
    rw [bne_iff_ne]
    rintro rfl
    rw [String.toList_append, List.mem_append] at hc
    exact hc.elim hlead fun htail => htext _ htail rfl
  cases h with
  | comment c => exact @htitle "comment " _ (by decide) Text.ne_lineFeed_of_mem_quote
  | trailer text => exact @htitle "trailer " _ (by decide) Text.ne_lineFeed_of_mem_quote
  | literal v =>
    cases v with
    | regexp value text =>
      have htext : ∀ c ∈ text.toList, c ≠ '\n' := by
        rintro c hc rfl
        exact absurd (keeps_regexp.forall_mem hh.1.2.1 '\n' hc) (by decide)
      exact @htitle "regexp " _ (by decide) htext
    | _ => simp [word, Literal.word, oneLineWords] at hword
  | _ => simp [family, word] at hfamily

/-- `titleLength` finds the end of a line, whatever follows. -/
theorem Genuine.titleLength_title {d : Dialect} {h : Heading} (hh : h.Genuine d)
    (rest : List Char) : titleLength (h.title.toList ++ '\n' :: rest) = h.title.toList.length := by
  rw [titleLength, firstWord_title]
  by_cases hword : h.word ∈ oneLineWords
  · rw [if_pos hword, run_append (hh.ne_lineFeed hword),
      run_eq_zero (stops_cons (by decide) rest), Nat.add_zero]
  · have hlabel : ∀ w ∈ words, Unquoted w := by decide +kernel
    rw [if_neg hword]
    exact ((hh.delimited_detail hword).append_left (hlabel _ h.word_mem)).length_eq rest

end Heading

/-- A `Heading` is found again from the text that begins with its line, and so is what follows. -/
theorem Heading.Genuine.append_inj {d d' : Dialect} {a b : Heading} {r s : List Char}
    (ha : a.Genuine d) (hb : b.Genuine d')
    (h : a.title.toList ++ '\n' :: r = b.title.toList ++ '\n' :: s) : a = b ∧ r = s := by
  have hlength : a.title.toList.length = b.title.toList.length := by
    rw [← ha.titleLength_title r, h, hb.titleLength_title]
  obtain ⟨htitle, hrest⟩ := List.append_inj h hlength
  exact ⟨eq_of_title_eq ha hb (String.toList_inj.1 htitle), (List.cons.inj hrest).2⟩

/-! ## Sketches -/

/-- A `Heading` with what stands below it. -/
inductive Sketch where
  | mk (heading : Heading) (below : List Sketch)

namespace Sketch

mutual

/-- The lines of a sketch at a depth, two blanks for each level. -/
def lines (depth : Nat) : Sketch → Outline
  | mk h below => Outline.line depth h.title ++ linesOf (depth + 1) below

/-- The lines of several sketches, one after the other. -/
def linesOf (depth : Nat) : List Sketch → Outline
  | [] => []
  | s :: ss => lines depth s ++ linesOf depth ss

end

@[simp] theorem lines_mk (depth : Nat) (h : Heading) (below : List Sketch) :
    (mk h below).lines depth = Outline.line depth h.title ++ linesOf (depth + 1) below := by
  rw [lines]

@[simp] theorem linesOf_nil (depth : Nat) : linesOf depth [] = [] := by
  rw [linesOf]

@[simp] theorem linesOf_cons (depth : Nat) (s : Sketch) (ss : List Sketch) :
    linesOf depth (s :: ss) = s.lines depth ++ linesOf depth ss := by
  rw [linesOf]

theorem linesOf_eq_flatMap (depth : Nat) (ss : List Sketch) :
    linesOf depth ss = ss.flatMap (lines depth) := by
  induction ss with
  | nil => rfl
  | cons s ss ih => rw [linesOf_cons, ih, List.flatMap_cons]

/-- `linesOf` goes through sketches one after the other. -/
theorem linesOf_append (depth : Nat) (ss ss' : List Sketch) :
    linesOf depth (ss ++ ss') = linesOf depth ss ++ linesOf depth ss' := by
  simp only [linesOf_eq_flatMap, List.flatMap_append]

mutual

/-- All headings of a sketch. -/
def headings : Sketch → List Heading
  | mk h below => h :: headingsOf below

/-- All headings of several sketches. -/
def headingsOf : List Sketch → List Heading
  | [] => []
  | s :: ss => headings s ++ headingsOf ss

end

/-- A sketch whose `headings` are genuine. -/
def Genuine (d : Dialect) (s : Sketch) : Prop :=
  ∀ h ∈ s.headings, h.Genuine d

/-- Sketches whose headings are genuine. -/
def AllGenuine (d : Dialect) (ss : List Sketch) : Prop :=
  ∀ h ∈ headingsOf ss, h.Genuine d

@[simp] theorem genuine_mk {d : Dialect} {h : Heading} {below : List Sketch} :
    (mk h below).Genuine d ↔ h.Genuine d ∧ AllGenuine d below := by
  simp [Genuine, AllGenuine, headings]

@[simp] theorem allGenuine_nil {d : Dialect} : AllGenuine d [] :=
  nofun

@[simp] theorem allGenuine_cons {d : Dialect} {s : Sketch} {ss : List Sketch} :
    AllGenuine d (s :: ss) ↔ s.Genuine d ∧ AllGenuine d ss := by
  simp [Genuine, AllGenuine, headingsOf, or_imp, forall_and]

/-! ## The text of sketches -/

/-- The text of sketches at a depth, as `Outline.render` writes it. -/
def text (depth : Nat) (ss : List Sketch) : List Char :=
  (Outline.render (linesOf depth ss)).toList

@[simp] theorem text_nil (depth : Nat) : text depth [] = [] :=
  rfl

@[simp] theorem text_cons (depth : Nat) (h : Heading) (below ss : List Sketch) :
    text depth (mk h below :: ss) = List.replicate (2 * depth) ' ' ++ (h.title.toList ++
      '\n' :: (text (depth + 1) below ++ text depth ss)) := by
  simp [text, render, Outline.line]

/-- A text that begins with fewer blanks than a line at a depth, or is at its end. -/
def Shallow (depth : Nat) (cs : List Char) : Prop :=
  cs = [] ∨ run (· == ' ') cs < 2 * depth

/-- A line begins with just the blanks that its depth asks for, since no heading begins with
one. -/
theorem run_text_cons (depth : Nat) (h : Heading) (below ss : List Sketch) (rest : List Char) :
    run (· == ' ') (text depth (mk h below :: ss) ++ rest) = 2 * depth := by
  obtain ⟨c, cs, hcons, hc⟩ := h.exists_title_eq_cons
  have hstops (t : List Char) : Stops (· == ' ') (c :: t) := stops_cons (by simpa using hc) t
  rw [text_cons, hcons, List.append_assoc, run_append (by simp), List.cons_append, List.cons_append,
    run_eq_zero (hstops _)]
  simp

/-- What stands at a depth is `Shallow` to what stands below it. -/
theorem shallow_text {depth : Nat} (ss : List Sketch) {rest : List Char} (h : Shallow depth rest) :
    Shallow (depth + 1) (text depth ss ++ rest) := by
  cases ss with
  | nil =>
    rcases h with h | h
    · exact .inl h
    · exact .inr (by simp only [text_nil, List.nil_append]; omega)
  | cons s ss =>
    obtain ⟨heading, below⟩ := s
    exact .inr (by rw [run_text_cons]; omega)

/-- What stands at a depth is not `Shallow` to itself. -/
theorem not_shallow_text_cons {depth : Nat} {s : Sketch} {ss : List Sketch} {rest : List Char} :
    ¬Shallow depth (text depth (s :: ss) ++ rest) := by
  obtain ⟨heading, below⟩ := s
  rintro (h | h)
  · simp at h
  · rw [run_text_cons] at h
    exact Nat.lt_irrefl _ h

/-- What stands at a depth is found again from its `text`, up to a line that stands less deep. -/
theorem text_append_inj {d d' : Dialect} (depth : Nat) (ss ss' : List Sketch) {r r' : List Char}
    (hss : AllGenuine d ss) (hss' : AllGenuine d' ss') (hr : Shallow depth r)
    (hr' : Shallow depth r') (h : text depth ss ++ r = text depth ss' ++ r') :
    ss = ss' ∧ r = r' := by
  match ss, ss' with
  | [], [] => exact ⟨rfl, h⟩
  | [], _ :: _ =>
    rw [text_nil, List.nil_append] at h
    exact absurd (h ▸ hr) not_shallow_text_cons
  | _ :: _, [] =>
    rw [text_nil, List.nil_append] at h
    exact absurd (h ▸ hr') not_shallow_text_cons
  | mk a below :: xs, mk b below' :: ys =>
    simp only [allGenuine_cons, genuine_mk] at hss hss'
    obtain ⟨⟨ha, hbelow⟩, hxs⟩ := hss
    obtain ⟨⟨hb, hbelow'⟩, hys⟩ := hss'
    have hline : a.title.toList ++ '\n' :: (text (depth + 1) below ++ (text depth xs ++ r)) =
        b.title.toList ++ '\n' :: (text (depth + 1) below' ++ (text depth ys ++ r')) := by
      simpa using h
    obtain ⟨rfl, hrest⟩ := ha.append_inj hb hline
    -- what stands below the line ends where the next line of its depth begins, or a shallower one
    obtain ⟨rfl, hnext⟩ := text_append_inj (depth + 1) below below' hbelow hbelow'
      (shallow_text xs hr) (shallow_text ys hr') hrest
    obtain ⟨rfl, rfl⟩ := text_append_inj depth xs ys hxs hys hr hr' hnext
    exact ⟨rfl, rfl⟩
termination_by sizeOf ss

/-- A sketch with genuine headings is found again from its text. -/
theorem eq_of_render_eq {d d' : Dialect} {s s' : Sketch} (hs : s.Genuine d)
    (hs' : s'.Genuine d') (h : render (s.lines 0) = render (s'.lines 0)) : s = s' := by
  have htext : text 0 [s] ++ [] = text 0 [s'] ++ [] := by
    simp only [text, linesOf_cons, linesOf_nil, List.append_nil, h]
  obtain ⟨hlist, -⟩ := text_append_inj 0 [s] [s'] (allGenuine_cons.2 ⟨hs, allGenuine_nil⟩)
    (allGenuine_cons.2 ⟨hs', allGenuine_nil⟩) (.inl rfl) (.inl rfl) htext
  exact List.singleton_inj.1 hlist

end Sketch

end Diglot

import Diglot.Proofs.Lawful
import Diglot.Proofs.Positions
import Diglot.Proofs.Quoting
import Diglot.Tree.Outline

/-!
# The lines of an outline

A line of an outline begins with a word that says what it is about. What follows depends on the
word: a name, names between commas, a spelling, quoted text. So a line tells all that a node holds
itself, if the names of the node are names and its literals are spelled as literals are.

- `Heading`: what a line tells, and `Heading.title`, the line.
- `Heading.Genuine`: the headings that the nodes of parsed trees have.
- `Heading.split_title`, `Heading.family_eq_of_word_eq`: what the first word of a line tells.
- `Outline.names_append_inj`: names between commas are found again.
- `Heading.eq_of_title_eq`: a heading is found again from its line.
-/

namespace Diglot

open Lexeme

/-! ## Headings -/

/-- The lines that are a word alone, `Mark.word`. -/
inductive Mark where
  | grouping | ternary | call | index | object | array
  | ifThen | thenPart | elsePart | whileLoop | doPart | throw | ret | block
  | comments | unit
  deriving DecidableEq

/-- All of `Mark`, so that its words can be gone through. -/
def Mark.all : List Mark :=
  [ grouping, ternary, call, index, object, array, ifThen, thenPart, elsePart, whileLoop, doPart
  , throw, ret, block, comments, unit ]

/-- The word itself. -/
def Mark.word : Mark → String
  | grouping => "grouping"
  | ternary => "ternary"
  | call => "call"
  | index => "index"
  | object => "object"
  | array => "array"
  | ifThen => "if"
  | thenPart => "then"
  | elsePart => "else"
  | whileLoop => "while"
  | doPart => "do"
  | throw => "throw"
  | ret => "return"
  | block => "block"
  | comments => "comments"
  | unit => "unit"

/-- The word before the spelling of a literal. -/
def Literal.word : Literal → String
  | .boolean .. => "boolean"
  | .fixnum .. => "fixnum"
  | .flonum .. => "flonum"
  | .string .. => "string"
  | .regexp .. => "regexp"

/-- What a `Declaration` declares, without the nodes inside it. -/
inductive Declared where
  | function (name : String) (params : List String) (isAsync : Bool)
  | var (keyword : VarKeyword) (name : String)
  | vars (keyword : VarKeyword) (names : List String)

namespace Declared

/-- The first word of a declaration that is not exported. -/
def word : Declared → String
  | function _ _ isAsync => if isAsync then "async" else "function"
  | var keyword _ | vars keyword _ => keyword.spelling

/-- What follows the first word. -/
def detail : Declared → String
  | function name params isAsync =>
    (if isAsync then " function " else " ") ++ name ++ "(" ++ Outline.names params ++ ")"
  | var _ name => " " ++ name
  | vars _ names => " [" ++ Outline.names names ++ "]"

def names : Declared → List String
  | function name params _ => name :: params
  | var _ name => [name]
  | vars _ names => names

end Declared

/-- What a line of an outline tells. The line itself is `Heading.title`. -/
inductive Heading where
  | mark (m : Mark)
  | symbol (name : String)
  | literal (value : Literal)
  | unary (op : UnaryOp)
  | step (op : StepOp)
  | binary (op : BinaryOp)
  | list (trailingComma : Bool)
  | function (name : Option String) (params : List String)
  | arrow (params : List String)
  | arrowBlock (params : List String)
  | pair (key : Key)
  | forLoop (keyword : Option VarKeyword) (names : List String) (bracketed : Bool)
  | declared (exported : Bool) (x : Declared)
  | comment (c : Comment)
  | moduleName (name : String)
  | imported (i : Import)
  | trailer (text : String)

namespace Heading

/-- The first word of a line. -/
def word : Heading → String
  | mark m => m.word
  | symbol _ => "symbol"
  | literal value => value.word
  | unary _ => "prefix"
  | step _ => "postfix"
  | binary _ => "binary"
  | list _ => "list"
  | function .. => "function-literal"
  | arrow _ => "arrow"
  | arrowBlock _ => "arrow-block"
  | pair _ => "pair"
  | forLoop .. => "for"
  | declared exported x => if exported then "export" else x.word
  | comment _ => "comment"
  | moduleName _ => "module"
  | imported _ => "import"
  | trailer _ => "trailer"

/-- The names of a loop, with the word that declares them. -/
def loopNames (keyword : Option VarKeyword) (names : List String) (bracketed : Bool) : String :=
  (match keyword with
    | some k => k.spelling ++ " "
    | none => "") ++ if bracketed then "[" ++ Outline.names names ++ "]" else Outline.names names

/-- What follows the first word of a line: nothing, or a blank and something else. -/
def detail : Heading → String
  | mark _ => ""
  | symbol name => " " ++ name
  | literal value => " " ++ value.text
  | unary op => " " ++ op.spelling
  | step op => " " ++ op.spelling
  | binary op => " " ++ op.spelling
  | list trailingComma => if trailingComma then " trailing-comma" else ""
  | function name params => " " ++ name.getD "" ++ "(" ++ Outline.names params ++ ")"
  | arrow params | arrowBlock params => " (" ++ Outline.names params ++ ")"
  | pair key => " " ++ key.text
  | forLoop keyword names bracketed => " " ++ loopNames keyword names bracketed ++ " of"
  | declared exported x => if exported then " " ++ x.word ++ x.detail else x.detail
  | comment c => " " ++ Text.quote c.text
  | moduleName name => " " ++ name
  | imported (.names ns path) => " \x7b " ++ Outline.names ns ++ " \x7d from " ++ path
  | imported (.whole name path) => " * as " ++ name ++ " from " ++ path
  | trailer text => " " ++ Text.quote text

/-- The line, without the blanks before it and the line feed after it: the `word` and the
`detail`. -/
def title (h : Heading) : String :=
  h.word ++ h.detail

end Heading

/-- A `Key` that is a string has its spelling for a value. -/
def Key.Faithful : Key → Prop
  | .symbol _ => True
  | .string value text => value = text

/-- The names, literals, comments and imports that a heading holds are genuine. The name of a
member need not be free in the dialect, so for a `symbol` it is enough to be a word. -/
def Heading.Genuine (d : Dialect) : Heading → Prop
  | symbol name => IsWord name
  | literal value => Diglot.Genuine d value.text value.kind ∧ value.Faithful
  | function name params => ∀ n ∈ name.toList ++ params, IsName d n
  | arrow params | arrowBlock params => ∀ n ∈ params, IsName d n
  | pair key => key.Genuine d ∧ (∀ n ∈ key.names, IsName d n) ∧ key.Faithful
  | forLoop _ names _ => names ≠ [] ∧ ∀ n ∈ names, IsName d n
  | declared _ x => ∀ n ∈ x.names, IsName d n
  | comment c => c.Genuine d
  | moduleName name => IsName d name
  | imported i => i.Genuine d
  | _ => True

/-! ## First words -/

namespace Outline

/-- The characters of the first word of a line. -/
def isLabelChar (c : Char) : Bool :=
  c != ' ' && c != '\n'

/-- A word that a line may begin with: it is not empty, and holds neither a blank nor a line
feed. -/
def IsLabel (word : String) : Prop :=
  word ≠ "" ∧ ∀ c ∈ word.toList, isLabelChar c = true

theorem isLabel_iff {word : String} :
    IsLabel word ↔ word ≠ "" ∧ word.toList.all isLabelChar = true := by
  rw [IsLabel, List.all_eq_true]

instance (word : String) : Decidable (IsLabel word) :=
  decidable_of_iff _ isLabel_iff.symm

/-- The word at the start of a text, up to what is no `isLabelChar`. -/
def firstWord (cs : List Char) : String :=
  String.ofList (cs.takeWhile isLabelChar)

/-- The words that are lines of their own. -/
def markWords : List String :=
  Mark.all.map Mark.word

/-- The words before the spelling of a literal. -/
def literalWords : List String :=
  ["boolean", "fixnum", "flonum", "string", "regexp"]

/-- The words that declarations begin with. -/
def declaredWords : List String :=
  ["async", "function", "let", "var", "const"]

/-- The words that only one sort of line begins with. -/
def soleWords : List String :=
  [ "symbol", "prefix", "postfix", "binary", "list", "function-literal", "arrow", "arrow-block"
  , "pair", "for", "comment", "module", "import", "trailer" ]

/-- All words that lines begin with. -/
def words : List String :=
  markWords ++ literalWords ++ "export" :: declaredWords ++ soleWords

/-- What the lines that begin with a word are about, as `Heading.family` tells it of a heading.
A word that only one sort of line begins with stands for that sort. -/
def familyOf (word : String) : String :=
  if word ∈ markWords then "mark"
  else if word ∈ literalWords then "literal"
  else if word ∈ "export" :: declaredWords then "declaration"
  else word

end Outline

open Outline

theorem Mark.word_mem (m : Mark) : m.word ∈ markWords := by
  cases m <;> decide

theorem Literal.word_mem (v : Literal) : v.word ∈ literalWords := by
  cases v <;> simp [word, literalWords]

theorem Declared.word_mem (x : Declared) : x.word ∈ declaredWords := by
  cases x with
  | function _ _ isAsync => cases isAsync <;> simp [word, declaredWords]
  | var k _ => cases k <;> simp [word, declaredWords, VarKeyword.spelling]
  | vars k _ => cases k <;> simp [word, declaredWords, VarKeyword.spelling]

namespace Heading

/-- What a heading is about. -/
def family : Heading → String
  | mark _ => "mark"
  | literal _ => "literal"
  | declared .. => "declaration"
  | h => h.word

/-- Every line begins with one of the `Outline.words`. -/
theorem word_mem (h : Heading) : h.word ∈ words := by
  cases h with
  | mark m => simp [words, word, m.word_mem]
  | literal v => simp [words, word, v.word_mem]
  | declared exported x => cases exported <;> simp [words, word, x.word_mem]
  | _ => simp [words, word, soleWords]

theorem isLabel_word (h : Heading) : IsLabel h.word := by
  have hall : ∀ w ∈ words, IsLabel w := by decide +kernel
  exact hall _ h.word_mem

/-- The first word of a line tells what it is about: `Outline.familyOf` finds the `family`
again. -/
theorem familyOf_word (h : Heading) : familyOf h.word = h.family := by
  have hsole : ∀ w ∈ soleWords, familyOf w = w := by decide
  cases h with
  | mark m =>
    have hall : ∀ w ∈ markWords, familyOf w = "mark" := by decide
    exact hall _ m.word_mem
  | literal v =>
    have hall : ∀ w ∈ literalWords, familyOf w = "literal" := by decide
    exact hall _ v.word_mem
  | declared exported x =>
    have hall : ∀ w ∈ "export" :: declaredWords, familyOf w = "declaration" := by decide
    refine hall _ ?_
    cases exported with
    | true => exact List.mem_cons_self
    | false => exact List.mem_cons_of_mem _ x.word_mem
  | _ => exact hsole _ (by simp [word, soleWords])

/-- After the first word a line ends, or goes on with a blank. -/
theorem head?_detail (h : Heading) (c : Char) (hc : h.detail.toList.head? = some c) : c = ' ' := by
  revert hc
  cases h with
  | declared exported x =>
    cases exported <;> cases x with
    | function _ _ isAsync => cases isAsync <;> simp [detail, Declared.detail, eq_comm]
    | _ => simp [detail, Declared.detail, eq_comm]
  | imported i => cases i <;> simp [detail, eq_comm]
  | list comma => cases comma <;> simp [detail, eq_comm]
  | _ => simp [detail, eq_comm]

/-- The first word of a line ends where `detail` begins. -/
theorem stops_detail (h : Heading) {rest : List Char} (hrest : Stops isLabelChar rest) :
    Stops isLabelChar (h.detail.toList ++ rest) := by
  intro c hc
  rw [List.head?_append] at hc
  cases hdetail : h.detail.toList.head? with
  | none =>
    rw [hdetail] at hc
    exact hrest c hc
  | some e =>
    rw [hdetail] at hc
    obtain rfl : e = c := by simpa using hc
    rw [head?_detail h e hdetail]
    decide

/-- The first word of a `title` is found again from it, and so is what follows. -/
theorem split_title {a b : Heading} (h : a.title = b.title) :
    a.word = b.word ∧ a.detail = b.detail := by
  have hstops (h : Heading) : Stops isLabelChar h.detail.toList := by
    simpa using h.stops_detail (stops_nil _)
  have hlist : a.word.toList ++ a.detail.toList = b.word.toList ++ b.detail.toList := by
    simpa [title] using congrArg String.toList h
  obtain ⟨hword, hdetail⟩ := append_inj_of_stops a.isLabel_word.2 b.isLabel_word.2 (hstops a)
    (hstops b) hlist
  exact ⟨String.toList_inj.1 hword, String.toList_inj.1 hdetail⟩

/-- The first word of a line is the `word` of its heading, whatever lines follow. -/
theorem firstWord_title (h : Heading) (rest : List Char) :
    firstWord (h.title.toList ++ '\n' :: rest) = h.word := by
  have hstops := h.stops_detail (stops_cons (by decide : isLabelChar '\n' = false) rest)
  rw [firstWord, title, String.toList_append, List.append_assoc,
    takeWhile_append_of_stops h.isLabel_word.2 hstops, String.ofList_toList]

/-- Two lines that begin with the same word are of the same `family`. -/
theorem family_eq_of_word_eq {a b : Heading} (h : a.word = b.word) : a.family = b.family := by
  rw [← familyOf_word, ← familyOf_word, h]

/-- A `title` does not begin with a blank, so the blanks before it tell its depth. -/
theorem exists_title_eq_cons (h : Heading) : ∃ c cs, h.title.toList = c :: cs ∧ c ≠ ' ' := by
  obtain ⟨hne, hlabel⟩ := h.isLabel_word
  obtain ⟨c, cs, hword⟩ := List.exists_cons_of_ne_nil (l := h.word.toList)
    (fun hnil => hne (String.toList_inj.1 hnil))
  have htitle : h.title.toList = c :: (cs ++ h.detail.toList) := by
    rw [title, String.toList_append, hword, List.cons_append]
  refine ⟨c, cs ++ h.detail.toList, htitle, ?_⟩
  rintro rfl
  exact absurd (hlabel ' ' (by simp [hword])) (by decide)

end Heading

/-! ## Names -/

theorem IsWord.exists_eq_cons {text : String} (h : IsWord text) :
    ∃ c cs, text.toList = c :: cs ∧ isWordChar c = true := by
  obtain ⟨⟨c, cs, htext, -⟩, hall⟩ := h
  exact ⟨c, cs, htext, hall c (by simp [htext])⟩

namespace Outline

/-- The characters of names, and the comma between them. -/
def isNamesChar (c : Char) : Bool :=
  isWordChar c || c == ','

theorem stops_isWordChar {rest : List Char} (h : Stops isNamesChar rest) :
    Stops isWordChar rest := by
  intro c hc
  have := h c hc
  simp only [isNamesChar, Bool.or_eq_false_iff] at this
  exact this.1

/-- Names after another one, each with the comma before it: what `names` adds to the first. -/
def moreNames : List String → String
  | [] => ""
  | n :: ns => ", " ++ n ++ moreNames ns

theorem names_cons (n : String) (ns : List String) : names (n :: ns) = n ++ moreNames ns := by
  induction ns generalizing n with
  | nil => simp [names, moreNames]
  | cons m ns ih =>
    rw [names, String.intercalate_cons_cons, ← names, ih, moreNames]
    simp only [String.append_assoc]

/-- A name ends at the comma after it, or where the names end. -/
theorem stops_moreNames (ns : List String) {rest : List Char} (h : Stops isNamesChar rest) :
    Stops isWordChar ((moreNames ns).toList ++ rest) := by
  cases ns with
  | nil => exact stops_isWordChar h
  | cons n ns =>
    rw [moreNames, String.append_assoc, String.toList_append]
    exact stops_cons (by decide) _

/-- Names after another one are found again, up to what does not go on with names. The induction
is on both lists: where one has a comma and the other has not, the texts differ. -/
theorem moreNames_append_inj {ns ms : List String} {r s : List Char} (hns : ∀ n ∈ ns, IsWord n)
    (hms : ∀ m ∈ ms, IsWord m) (hr : Stops isNamesChar r) (hs : Stops isNamesChar s)
    (h : (moreNames ns).toList ++ r = (moreNames ms).toList ++ s) : ns = ms ∧ r = s := by
  induction ns generalizing ms with
  | nil =>
    cases ms with
    | nil => exact ⟨rfl, h⟩
    | cons m ms =>
      -- a comma goes on with names, where nothing may
      have hr' : r = (moreNames (m :: ms)).toList ++ s := h
      exact absurd (hr ',' (by simp [hr', moreNames])) (by decide)
  | cons n ns ih =>
    cases ms with
    | nil =>
      have hs' : s = (moreNames (n :: ns)).toList ++ r := h.symm
      exact absurd (hs ',' (by simp [hs', moreNames])) (by decide)
    | cons m ms =>
      have hrest : n.toList ++ ((moreNames ns).toList ++ r) =
          m.toList ++ ((moreNames ms).toList ++ s) := by
        simpa [moreNames] using h
      obtain ⟨hword, hmore⟩ := append_inj_of_stops (hns n (by simp)).2 (hms m (by simp)).2
        (stops_moreNames ns hr) (stops_moreNames ms hs) hrest
      obtain rfl := String.toList_inj.1 hword
      obtain ⟨rfl, rfl⟩ := ih (fun a ha => hns a (by simp [ha])) (fun a ha => hms a (by simp [ha]))
        hmore
      exact ⟨rfl, rfl⟩

/-- What does not go on with names does not begin with one of the `names`. -/
theorem ne_names_append {n : String} {ns : List String} {t u : String} (hn : IsWord n)
    (ht : Stops isNamesChar t.toList) : t ≠ names (n :: ns) ++ u := by
  rintro rfl
  obtain ⟨c, cs, hcons, hc⟩ := hn.exists_eq_cons
  have hstop := stops_isWordChar ht c (by simp [names_cons, hcons])
  rw [hc] at hstop
  cases hstop

/-- The `names` between commas are found again, up to what does not go on with names. -/
theorem names_append_inj {ns ms : List String} {t u : String} (hns : ∀ n ∈ ns, IsWord n)
    (hms : ∀ m ∈ ms, IsWord m) (ht : Stops isNamesChar t.toList) (hu : Stops isNamesChar u.toList)
    (h : names ns ++ t = names ms ++ u) : ns = ms ∧ t = u := by
  cases ns with
  | nil =>
    cases ms with
    | nil => exact ⟨rfl, by simpa [names] using h⟩
    | cons m ms => exact absurd (by simpa [names] using h) (ne_names_append (hms m (by simp)) ht)
  | cons n ns =>
    cases ms with
    | nil => exact absurd (by simpa [names] using h.symm) (ne_names_append (hns n (by simp)) hu)
    | cons m ms =>
      have hcomma := congrArg (fun x => (", " ++ x).toList) h
      obtain ⟨hnames, hrest⟩ := moreNames_append_inj (r := t.toList) (s := u.toList) hns hms ht hu
        (by simpa [moreNames, names_cons] using hcomma)
      exact ⟨hnames, String.toList_inj.1 hrest⟩

/-- A word and what follows it are found again. -/
theorem word_append_inj {a b t u : String} (ha : ∀ c ∈ a.toList, isWordChar c = true)
    (hb : ∀ c ∈ b.toList, isWordChar c = true) (ht : Stops isWordChar t.toList)
    (hu : Stops isWordChar u.toList) (h : a ++ t = b ++ u) : a = b ∧ t = u := by
  have hlist : a.toList ++ t.toList = b.toList ++ u.toList := by
    simpa using congrArg String.toList h
  obtain ⟨hword, hrest⟩ := append_inj_of_stops ha hb ht hu hlist
  exact ⟨String.toList_inj.1 hword, String.toList_inj.1 hrest⟩

/-- The name of a function and its parameters are found again: the parenthesis ends the name. -/
theorem signature_inj {n m : String} {ps qs : List String}
    (hn : ∀ c ∈ n.toList, isWordChar c = true) (hm : ∀ c ∈ m.toList, isWordChar c = true)
    (hps : ∀ p ∈ ps, IsWord p) (hqs : ∀ q ∈ qs, IsWord q)
    (h : n ++ ("(" ++ (names ps ++ ")")) = m ++ ("(" ++ (names qs ++ ")"))) : n = m ∧ ps = qs := by
  obtain ⟨rfl, hparams⟩ := word_append_inj hn hm (stops_append (by decide) _)
    (stops_append (by decide) _) h
  have hclose : Stops isNamesChar ")".toList := stops_cons (by decide) _
  exact ⟨rfl, (names_append_inj hps hqs hclose hclose ((String.append_right_inj _).1 hparams)).1⟩

end Outline

/-! ## Headings are found again -/

theorem VarKeyword.eq_of_spelling_eq {k k' : VarKeyword} (h : k.spelling = k'.spelling) :
    k = k' := by
  cases k <;> cases k' <;> first | rfl | exact absurd h (by decide)

theorem VarKeyword.isWordChar_spelling (k : VarKeyword) :
    ∀ c ∈ k.spelling.toList, isWordChar c = true := by
  cases k <;> exact forall_mem_of_all (by decide)

/-- A word that declares variables is reserved, so no `IsName` holds of it. -/
theorem VarKeyword.not_isName (k : VarKeyword) (d : Dialect) : ¬IsName d k.spelling := by
  intro h
  have hfree := h.free
  revert hfree
  cases d <;> cases k <;> decide

theorem VarKeyword.spelling_ne_word (k : VarKeyword) (name : String) (params : List String)
    (isAsync : Bool) : k.spelling ≠ (Declared.function name params isAsync).word := by
  cases isAsync <;> cases k <;> simp [Declared.word, spelling]

theorem forall_isWord {d : Dialect} {ns : List String} (h : ∀ n ∈ ns, IsName d n) :
    ∀ n ∈ ns, IsWord n :=
  fun n hn => (h n hn).word

/-- A `Declared` is found again from its `word` and its `detail`. -/
theorem Declared.eq_of_detail_eq {d d' : Dialect} {x y : Declared} (hx : ∀ n ∈ x.names, IsName d n)
    (hy : ∀ n ∈ y.names, IsName d' n) (hword : x.word = y.word) (hdetail : x.detail = y.detail) :
    x = y := by
  -- one variable is told apart from several by the bracket
  have hbracket {n : String} {ns : List String} (hn : IsWord n) :
      " " ++ n ≠ " [" ++ Outline.names ns ++ "]" := by
    intro h
    obtain ⟨c, cs, hcons, hc⟩ := hn.exists_eq_cons
    have hlist := congrArg String.toList h
    simp [hcons] at hlist
    rw [hlist.1] at hc
    exact absurd hc (by decide)
  cases x with
  | function n ps isAsync =>
    cases y with
    | function m qs isAsync' =>
      obtain rfl : isAsync = isAsync' := by
        revert hword
        cases isAsync <;> cases isAsync' <;> simp [word]
      simp only [detail, String.append_assoc, String.append_right_inj] at hdetail
      obtain ⟨rfl, rfl⟩ := signature_inj (hx n (by simp [names])).word.2
        (hy m (by simp [names])).word.2 (fun p hp => (hx p (by simp [names, hp])).word)
        (fun q hq => (hy q (by simp [names, hq])).word) hdetail
      rfl
    | var k _ | vars k _ => exact absurd hword.symm (k.spelling_ne_word n ps isAsync)
  | var k n =>
    cases y with
    | function m qs isAsync => exact absurd hword (k.spelling_ne_word m qs isAsync)
    | var k' m =>
      obtain rfl := VarKeyword.eq_of_spelling_eq hword
      obtain rfl := (String.append_right_inj _).1 hdetail
      rfl
    | vars k' ms => exact absurd hdetail (hbracket (hx n (by simp [names])).word)
  | vars k ns =>
    cases y with
    | function m qs isAsync => exact absurd hword (k.spelling_ne_word m qs isAsync)
    | var k' m => exact absurd hdetail.symm (hbracket (hy m (by simp [names])).word)
    | vars k' ms =>
      obtain rfl := VarKeyword.eq_of_spelling_eq hword
      simp only [detail, String.append_assoc, String.append_right_inj] at hdetail
      have hclose : Stops isNamesChar "]".toList := stops_cons (by decide) _
      obtain ⟨rfl, -⟩ := names_append_inj (forall_isWord hx) (forall_isWord hy) hclose hclose
        hdetail
      rfl

namespace Heading

section Loops

variable {d d' : Dialect} {ns ms : List String} {b b' : Bool}

theorem loopNames_none (ns : List String) (b : Bool) : loopNames none ns b =
    if b then "[" ++ Outline.names ns ++ "]" else Outline.names ns := by
  cases b <;> simp [loopNames]

/-- `loopNames` with a word that declares them, as the word before the names alone. -/
theorem loopNames_some (k : VarKeyword) (ns : List String) (b : Bool) :
    loopNames (some k) ns b = k.spelling ++ (" " ++ loopNames none ns b) := by
  cases b <;> simp [loopNames, String.append_assoc]

/-- Names in brackets do not begin as `Outline.names` without them do. -/
theorem bracketed_ne {n : String} (hn : IsWord n) (t : String) :
    "[" ++ t ≠ Outline.names (n :: ns) := by
  have hopen : Stops isNamesChar ("[" ++ t).toList := stops_append (by decide) t
  simpa using @ne_names_append n ns _ "" hn hopen

/-- The names of a loop that are not declared are found again, and so are the brackets. -/
theorem eq_of_loopNames_none (hns : ns ≠ [] ∧ ∀ n ∈ ns, IsName d n)
    (hms : ms ≠ [] ∧ ∀ m ∈ ms, IsName d' m) (h : loopNames none ns b = loopNames none ms b') :
    ns = ms ∧ b = b' := by
  obtain ⟨n, ns, rfl⟩ := List.exists_cons_of_ne_nil hns.1
  obtain ⟨m, ms, rfl⟩ := List.exists_cons_of_ne_nil hms.1
  rw [loopNames_none, loopNames_none] at h
  cases b <;> cases b' <;> simp only [if_true, Bool.false_eq_true, if_false] at h
  · have hend : Stops isNamesChar "".toList := stops_nil _
    have hnames := names_append_inj (forall_isWord hns.2) (forall_isWord hms.2) hend hend
      (by simpa using h)
    exact ⟨hnames.1, rfl⟩
  · rw [String.append_assoc] at h
    exact absurd h.symm (bracketed_ne (hns.2 n (by simp)).word _)
  · rw [String.append_assoc] at h
    exact absurd h (bracketed_ne (hms.2 m (by simp)).word _)
  · rw [String.append_assoc, String.append_assoc, String.append_right_inj] at h
    have hclose : Stops isNamesChar "]".toList := stops_cons (by decide) _
    exact ⟨(names_append_inj (forall_isWord hns.2) (forall_isWord hms.2) hclose hclose h).1, rfl⟩

/-- A word that declares is no name, by `VarKeyword.not_isName`, so what is not declared is told
apart from what is. -/
theorem keyword_append_ne (k : VarKeyword) (t : String)
    (hms : ms ≠ [] ∧ ∀ m ∈ ms, IsName d' m) : k.spelling ++ (" " ++ t) ≠ loopNames none ms b' := by
  obtain ⟨m, ms, rfl⟩ := List.exists_cons_of_ne_nil hms.1
  intro h
  rw [loopNames_none] at h
  cases b' with
  | true =>
    rw [if_pos rfl, String.append_assoc] at h
    have hlist := congrArg String.toList h
    cases k <;> simp [VarKeyword.spelling] at hlist
  | false =>
    rw [if_neg (by decide), names_cons] at h
    have hmore := stops_moreNames ms (stops_nil isNamesChar)
    rw [List.append_nil] at hmore
    obtain ⟨rfl, -⟩ := word_append_inj k.isWordChar_spelling (hms.2 m (by simp)).word.2
      (stops_append (by decide) t) hmore h
    exact k.not_isName d' (hms.2 _ (by simp))

/-- What `loopNames` prints is found again, with the word that declares the names. -/
theorem eq_of_loopNames {k k' : Option VarKeyword} (hns : ns ≠ [] ∧ ∀ n ∈ ns, IsName d n)
    (hms : ms ≠ [] ∧ ∀ m ∈ ms, IsName d' m) (h : loopNames k ns b = loopNames k' ms b') :
    k = k' ∧ ns = ms ∧ b = b' := by
  cases k with
  | none =>
    cases k' with
    | none => exact ⟨rfl, eq_of_loopNames_none hns hms h⟩
    | some k' =>
      rw [loopNames_some] at h
      -- a reserved word is not taken for the first name
      exact absurd h.symm (keyword_append_ne k' _ hns)
  | some k =>
    rw [loopNames_some] at h
    cases k' with
    | none => exact absurd h (keyword_append_ne k _ hms)
    | some k' =>
      rw [loopNames_some] at h
      obtain ⟨hk, hnames⟩ := word_append_inj k.isWordChar_spelling k'.isWordChar_spelling
        (stops_append (by decide) _) (stops_append (by decide) _) h
      obtain rfl := VarKeyword.eq_of_spelling_eq hk
      exact ⟨rfl, eq_of_loopNames_none hns hms ((String.append_right_inj _).1 hnames)⟩

end Loops

end Heading

/-! ### Spellings -/

/-- A string begins with a quote. -/
theorem exists_isQuote_of_string {text : String} (hne : text ≠ "")
    (h : string text.toList = text.length) : ∃ q cs, text.toList = q :: cs ∧ isQuote q = true := by
  obtain ⟨q, cs, hcons⟩ := List.exists_cons_of_ne_nil fun hnil => hne (String.toList_inj.1 hnil)
  refine ⟨q, cs, hcons, ?_⟩
  cases hq : isQuote q with
  | true => rfl
  | false =>
    have hpos := length_pos_of_ne_empty hne
    rw [← h, hcons, string, hq] at hpos
    exact absurd hpos (Nat.lt_irrefl 0)

/-- An `IsWord` is not spelled like a string: it does not begin with a quote. -/
theorem isWord_ne_string {name text : String} (hname : IsWord name) (hne : text ≠ "")
    (h : string text.toList = text.length) : name ≠ text := by
  rintro rfl
  obtain ⟨q, cs, hcons, hq⟩ := exists_isQuote_of_string hne h
  have := isQuote_of_isWordChar (hname.2 q (by simp [hcons]))
  rw [hq] at this
  cases this

/-- A `Key` is found again from its spelling. -/
theorem Key.eq_of_text_eq {d d' : Dialect} {j k : Key} (hj : (Heading.pair j).Genuine d)
    (hk : (Heading.pair k).Genuine d') (h : j.text = k.text) : j = k := by
  obtain ⟨hj, hjnames, hjvalue⟩ := hj
  obtain ⟨hk, hknames, hkvalue⟩ := hk
  cases j with
  | symbol a =>
    cases k with
    | symbol b => exact congrArg Key.symbol h
    | string _ text =>
      exact absurd h (isWord_ne_string (hjnames a (by simp [Key.names])).word hk.1 hk.2)
  | string _ text =>
    cases k with
    | symbol b =>
      exact absurd h.symm (isWord_ne_string (hknames b (by simp [Key.names])).word hj.1 hj.2)
    | string _ text' =>
      obtain rfl : text = text' := h
      obtain rfl := hjvalue
      obtain rfl := hkvalue
      rfl

/-- The spelling of a literal that is `Faithful` says its value. -/
theorem Literal.eq_of_text_eq {v w : Literal} (hv : v.Faithful) (hw : w.Faithful)
    (hword : v.word = w.word) (h : v.text = w.text) : v = w := by
  cases v with
  | boolean a text =>
    cases w with
    | boolean b text' =>
      obtain rfl : text = text' := h
      exact congrArg (boolean · text) (Bool.eq_iff_iff.2 (Iff.trans hv hw.symm))
    | _ => simp [word] at hword
  | fixnum a text =>
    cases w with
    | fixnum b text' =>
      obtain rfl : text = text' := h
      exact congrArg (fixnum · text) (hv.1.trans hw.1.symm)
    | _ => simp [word] at hword
  | flonum a text =>
    cases w with
    | flonum b text' =>
      obtain rfl : text = text' := h
      exact congrArg (flonum · text) (Eq.trans hv hw.symm)
    | _ => simp [word] at hword
  | string a text =>
    cases w with
    | string b text' =>
      obtain rfl : text = text' := h
      exact congrArg (string · text) (Eq.trans hv hw.symm)
    | _ => simp [word] at hword
  | regexp a text =>
    cases w with
    | regexp b text' =>
      obtain rfl : text = text' := h
      exact congrArg (regexp · text) (Eq.trans hv hw.symm)
    | _ => simp [word] at hword

/-- A comment that is genuine begins with the marks of its kind, so its text tells the kind. -/
theorem Comment.eq_of_text_eq {d d' : Dialect} {a b : Comment} (ha : a.Genuine d)
    (hb : b.Genuine d') (h : a.text = b.text) : a = b := by
  -- the second character of a comment is a slash or a star, and tells its kind
  have hslash {text : String} (hline : startsWith "//" text.toList = true)
      (hblock : text ≠ "" ∧ blockComment text.toList = text.length) : False := by
    have hpos := length_pos_of_ne_empty hblock.1
    rw [← hblock.2, blockComment] at hpos
    split at hpos
    case isTrue hstar =>
      obtain ⟨r, hr⟩ := startsWith_iff.1 hline
      obtain ⟨r', hr'⟩ := startsWith_iff.1 hstar
      simp [hr] at hr'
    case isFalse => exact absurd hpos (Nat.lt_irrefl 0)
  obtain ⟨ka, text⟩ := a
  obtain ⟨kb, text'⟩ := b
  obtain rfl : text = text' := h
  cases ka <;> cases kb
  · rfl
  · exact (hslash ha.1 hb).elim
  · exact (hslash hb.1 ha).elim
  · rfl

/-- An `Import` is found again from the line that tells of it. -/
theorem Import.eq_of_detail_eq {d d' : Dialect} {i j : Import} (hi : i.Genuine d)
    (hj : j.Genuine d') (h : (Heading.imported i).detail = (Heading.imported j).detail) :
    i = j := by
  cases i with
  | names ns path =>
    cases j with
    | names ms path' =>
      simp only [Heading.detail, String.append_assoc, String.append_right_inj] at h
      obtain ⟨rfl, hpath⟩ := names_append_inj (forall_isWord hi.1) (forall_isWord hj.1)
        (stops_append (by decide) _) (stops_append (by decide) _) h
      rw [(String.append_right_inj _).1 hpath]
    | whole m path' =>
      -- a brace is no star
      have hlist := congrArg String.toList h
      simp [Heading.detail] at hlist
  | whole n path =>
    cases j with
    | names ms path' =>
      have hlist := congrArg String.toList h
      simp [Heading.detail] at hlist
    | whole m path' =>
      simp only [Heading.detail, String.append_assoc, String.append_right_inj] at h
      obtain ⟨rfl, hpath⟩ := word_append_inj hi.1.word.2 hj.1.word.2 (stops_append (by decide) _)
        (stops_append (by decide) _) h
      rw [(String.append_right_inj _).1 hpath]

/-! ### Single words -/

theorem UnaryOp.eq_of_spelling_eq {o o' : UnaryOp} (h : o.spelling = o'.spelling) : o = o' := by
  have hfind (op : UnaryOp) : ofSpelling? op.spelling = some op := by
    cases op <;> decide
  exact Option.some.inj (by rw [← hfind, h, hfind])

theorem StepOp.eq_of_spelling_eq {o o' : StepOp} (h : o.spelling = o'.spelling) : o = o' := by
  cases o <;> cases o' <;> first | rfl | exact absurd h (by decide)

theorem BinaryOp.eq_of_spelling_eq {o o' : BinaryOp} (h : o.spelling = o'.spelling) : o = o' :=
  Option.some.inj (by rw [← ofSpelling?_spelling, h, ofSpelling?_spelling])

theorem Mark.eq_of_word_eq {m m' : Mark} (h : m.word = m'.word) : m = m' := by
  have hfind (m : Mark) : (all.find? fun a => a.word == m.word) = some m := by
    cases m <;> decide
  exact Option.some.inj (by rw [← hfind, h, hfind])

theorem isWordChar_getD {n : Option String} (hn : ∀ x ∈ n, IsWord x) :
    ∀ c ∈ (n.getD "").toList, isWordChar c = true := by
  cases n with
  | none => exact nofun
  | some n => exact (hn n rfl).2

/-- A function without a name is told apart from one with a name: no `IsWord` is empty. -/
theorem eq_of_getD_eq {n m : Option String} (hn : ∀ x ∈ n, IsWord x) (hm : ∀ x ∈ m, IsWord x)
    (h : n.getD "" = m.getD "") : n = m := by
  cases n with
  | none =>
    cases m with
    | none => rfl
    | some m => exact absurd h.symm (hm m rfl).ne_empty
  | some n =>
    cases m with
    | none => exact absurd h (hn n rfl).ne_empty
    | some m => exact congrArg some h

namespace Heading

/-- A declaration is found again from its line: the word `export` is no word of a `Declared`. -/
theorem declared_eq {d d' : Dialect} {x y : Declared} {e e' : Bool}
    (hx : (declared e x).Genuine d) (hy : (declared e' y).Genuine d')
    (h : (declared e x).title = (declared e' y).title) : declared e x = declared e' y := by
  have hexport (z : Declared) : "export" ≠ z.word := by
    have hall : ∀ w ∈ declaredWords, "export" ≠ w := by decide
    exact hall _ z.word_mem
  obtain ⟨hword, hdetail⟩ := split_title h
  cases e with
  | false =>
    cases e' with
    | false => exact congrArg _ (Declared.eq_of_detail_eq hx hy hword hdetail)
    | true => exact absurd hword.symm (hexport x)
  | true =>
    cases e' with
    | false => exact absurd hword (hexport y)
    | true =>
      -- after the word for exports come the lines of what is not exported
      have hplain : (declared false x).title = (declared false y).title := by
        simpa [detail, title, word, String.append_assoc] using hdetail
      obtain ⟨hword, hdetail⟩ := split_title hplain
      exact congrArg _ (Declared.eq_of_detail_eq hx hy hword hdetail)

/-- A `Heading` is found again from its line. -/
theorem eq_of_title_eq {d d' : Dialect} {a b : Heading} (ha : a.Genuine d) (hb : b.Genuine d')
    (h : a.title = b.title) : a = b := by
  obtain ⟨hword, hdetail⟩ := split_title h
  -- the first word leaves two headings of one family, so of one constructor
  have hfamily := family_eq_of_word_eq hword
  have hclose : Stops isNamesChar ")".toList := stops_cons (by decide) _
  have hcut {t u : String} (h : " " ++ t = " " ++ u) : t = u := (String.append_right_inj _).1 h
  cases a with
  | mark m =>
    cases b with
    | mark m' => exact congrArg mark (Mark.eq_of_word_eq hword)
    | _ => simp [family, word] at hfamily
  | symbol n =>
    cases b with
    | symbol m => exact congrArg symbol (hcut hdetail)
    | _ => simp [family, word] at hfamily
  | literal v =>
    cases b with
    | literal w => exact congrArg literal (Literal.eq_of_text_eq ha.2 hb.2 hword (hcut hdetail))
    | _ => simp [family, word] at hfamily
  | unary o =>
    cases b with
    | unary o' => exact congrArg unary (UnaryOp.eq_of_spelling_eq (hcut hdetail))
    | _ => simp [family, word] at hfamily
  | step o =>
    cases b with
    | step o' => exact congrArg step (StepOp.eq_of_spelling_eq (hcut hdetail))
    | _ => simp [family, word] at hfamily
  | binary o =>
    cases b with
    | binary o' => exact congrArg binary (BinaryOp.eq_of_spelling_eq (hcut hdetail))
    | _ => simp [family, word] at hfamily
  | list comma =>
    cases b with
    | list comma' =>
      revert hdetail
      cases comma <;> cases comma' <;> simp [detail]
    | _ => simp [family, word] at hfamily
  | function n ps =>
    cases b with
    | function m qs =>
      simp only [detail, String.append_assoc, String.append_right_inj] at hdetail
      have hn : ∀ x ∈ n, IsWord x := fun x hx => (ha x (by simp [Option.mem_def.1 hx])).word
      have hm : ∀ x ∈ m, IsWord x := fun x hx => (hb x (by simp [Option.mem_def.1 hx])).word
      obtain ⟨hname, rfl⟩ := signature_inj (isWordChar_getD hn) (isWordChar_getD hm)
        (fun p hp => (ha p (by simp [hp])).word) (fun q hq => (hb q (by simp [hq])).word) hdetail
      rw [eq_of_getD_eq hn hm hname]
    | _ => simp [family, word] at hfamily
  | arrow ps =>
    cases b with
    | arrow qs =>
      simp only [detail, String.append_assoc, String.append_right_inj] at hdetail
      exact congrArg arrow
        (names_append_inj (forall_isWord ha) (forall_isWord hb) hclose hclose hdetail).1
    | _ => simp [family, word] at hfamily
  | arrowBlock ps =>
    cases b with
    | arrowBlock qs =>
      simp only [detail, String.append_assoc, String.append_right_inj] at hdetail
      exact congrArg arrowBlock
        (names_append_inj (forall_isWord ha) (forall_isWord hb) hclose hclose hdetail).1
    | _ => simp [family, word] at hfamily
  | pair j =>
    cases b with
    | pair k => exact congrArg pair (Key.eq_of_text_eq ha hb (hcut hdetail))
    | _ => simp [family, word] at hfamily
  | forLoop k ns bracketed =>
    cases b with
    | forLoop k' ms bracketed' =>
      simp only [detail, String.append_right_inj, String.append_left_inj] at hdetail
      obtain ⟨rfl, rfl, rfl⟩ := eq_of_loopNames ha hb hdetail
      rfl
    | _ => simp [family, word] at hfamily
  | declared exported x =>
    cases b with
    | declared exported' y => exact declared_eq ha hb h
    | _ => simp [family, word] at hfamily
  | comment c =>
    cases b with
    | comment c' =>
      exact congrArg comment (Comment.eq_of_text_eq ha hb (Text.quote_inj (hcut hdetail)))
    | _ => simp [family, word] at hfamily
  | moduleName n =>
    cases b with
    | moduleName m => exact congrArg moduleName (hcut hdetail)
    | _ => simp [family, word] at hfamily
  | imported i =>
    cases b with
    | imported j => exact congrArg imported (Import.eq_of_detail_eq ha hb hdetail)
    | _ => simp [family, word] at hfamily
  | trailer t =>
    cases b with
    | trailer u => exact congrArg trailer (Text.quote_inj (hcut hdetail))
    | _ => simp [family, word] at hfamily

end Heading

end Diglot

import Mathlib.Data.List.Forall2
import Diglot.Proofs.Cutting
import Diglot.Proofs.Writing

/-!
# Printed text, cut

How the texts of a document are cut into tokens and comments. A document is cut on its own, whatever
its indentation, as long as the text after it is of some form: after a word no letter may follow,
after a line comment only the end of the line, and after most signs anything. The form of what
follows is found by looking at the document that comes next. Two things depend on more than that.
The sign for dividing and assigning begins a regular expression if a slash comes later on its line,
and comments after which nothing but comments comes may be taken for the trailer.

- `Tape.Trails`: pieces that end in a comment; `Tape.Idle`: the tape of blanks and comments.
- `Cut.Fares`: pieces come in front of a text, or a sign among them is lost to a regular expression.
- `Doc.Cuts`: a document is cut into pieces, before text of some form.
- `Doc.Leads`: what a document makes of the form of the text after it.
- `Doc.Cuts.append`: documents in a row are cut one after the other.
- `cuts_name`, `cuts_word`, `cuts_sign`: the documents that hold one token.
- `CutAll.laidOut`: elements with commas between them, on one line or on several.
-/

namespace Diglot

open Lexeme

/-! ## Pieces -/

namespace Piece

/-- A sign with its `spelling`. -/
abbrev sign (p : Punct) : Piece :=
  .token (.punct p) p.spelling

/-- A reserved word with its spelling. -/
abbrev word (k : Keyword) : Piece :=
  .token (.keyword k) k.spelling

/-- A name. -/
abbrev name (n : String) : Piece :=
  .token .symbol n

/-- The sign for dividing and assigning, which `Lexeme.regexp` may take for the beginning of its
own. -/
abbrev divide : Piece :=
  .token .assign "/="

end Piece

namespace Tape

/-- A tape on which no token is more than blanks, as at the end of a text. -/
def Idle (S : Tape) : Prop :=
  ∀ k text, Piece.token k text ∈ S → text.toList.all Text.isBlank = true

/-- Pieces that end in a comment, but for `Idle` ones. -/
def Trails (P : Tape) : Prop :=
  ∃ P₁ c P₂, P = P₁ ++ .comment c :: P₂ ∧ Idle P₂

variable {P Q : Tape}

/-- Two tapes in a row are `Idle` if both are. -/
theorem idle_append : (P ++ Q).Idle ↔ P.Idle ∧ Q.Idle := by
  simp only [Idle, List.mem_append]
  exact ⟨fun h => ⟨fun k text hk => h k text (.inl hk), fun k text hk => h k text (.inr hk)⟩,
    fun h k text hk => hk.elim (h.1 k text) (h.2 k text)⟩

/-- Pieces that are `Idle` do not hide the comment before them. -/
theorem Trails.append_idle (hP : P.Trails) (hQ : Q.Idle) : (P ++ Q).Trails := by
  obtain ⟨P₁, c, P₂, rfl, hP₂⟩ := hP
  exact ⟨P₁, c, P₂ ++ Q, by simp, idle_append.2 ⟨hP₂, hQ⟩⟩

theorem Trails.after (hQ : Q.Trails) (P : Tape) : (P ++ Q).Trails := by
  obtain ⟨Q₁, c, Q₂, rfl, hQ₂⟩ := hQ
  exact ⟨P ++ Q₁, c, Q₂, by simp, hQ₂⟩

end Tape

namespace Cut

/-- A text in which the `.divide` that some pieces hold has begun a regular expression. The
pieces before the sign come first. -/
def Spoilt (P : Tape) (c : Cut) : Prop :=
  ∃ P₁ P₂ cs S, P = P₁ ++ .divide :: P₂ ∧
    c.tape = P₁ ++ .token .regexp (String.ofList ('/' :: cs)) :: S

/-- What becomes of pieces in front of a text: they stay what they are if that is clear, and
otherwise they are `Spoilt`. -/
structure Fares (clear : Prop) (P : Tape) (c' c : Cut) : Prop where
  whole : clear → c' = c.prepend P
  spoilt : ¬clear → c'.Spoilt P

variable {clear : Prop} {P Q : Tape} {c c' : Cut}

theorem fares_of_eq (hclear : clear) (h : c' = c.prepend P) : Fares clear P c' c :=
  ⟨fun _ => h, fun hnot => absurd hclear hnot⟩

theorem Spoilt.mem (h : c.Spoilt P) : .divide ∈ P := by
  obtain ⟨P₁, P₂, cs, S, rfl, -⟩ := h
  simp

/-- Pieces without `.divide` stay what they are. -/
theorem Fares.eq_of_not_mem (h : Fares clear P c' c) (hP : .divide ∉ P) : c' = c.prepend P :=
  h.whole (by_contra fun hnot => hP (h.spoilt hnot).mem)

/-- What comes after the pieces does not save them. -/
theorem Spoilt.append (h : c.Spoilt P) (Q : Tape) : c.Spoilt (P ++ Q) := by
  obtain ⟨P₁, P₂, cs, S, rfl, htape⟩ := h
  exact ⟨P₁, P₂ ++ Q, cs, S, by simp, htape⟩

/-- Nor does what comes before. -/
theorem Spoilt.prepend (h : c.Spoilt Q) (P : Tape) : (c.prepend P).Spoilt (P ++ Q) := by
  obtain ⟨Q₁, Q₂, cs, S, rfl, htape⟩ := h
  exact ⟨P ++ Q₁, Q₂, cs, S, by simp, by simp [htape]⟩

/-- A text that is `Spoilt` holds the regular expression. -/
theorem Spoilt.not_idle (h : c.Spoilt P) : ¬c.tape.Idle := by
  obtain ⟨P₁, P₂, cs, S, -, htape⟩ := h
  intro hidle
  rw [htape] at hidle
  have hblank := hidle .regexp (String.ofList ('/' :: cs)) (by simp)
  rw [String.toList_ofList, List.all_cons, Bool.and_eq_true] at hblank
  exact absurd hblank.1 (by decide)

/-- In front of pieces that are not `Idle`, or of a text that is not, there is something of use. -/
theorem Fares.not_idle (h : Fares clear P c' c) (hidle : P.Idle → ¬c.tape.Idle) :
    ¬c'.tape.Idle := by
  by_cases hclear : clear
  · rw [h.whole hclear]
    exact fun hboth => hidle (Tape.idle_append.1 hboth).1 (Tape.idle_append.1 hboth).2
  · exact (h.spoilt hclear).not_idle

end Cut

/-- Text of any form. -/
def Anything (_ : List Char) : Prop :=
  True

namespace Doc

/-- The texts of a document are cut into pieces, before every text of the form `ok`. Where a
document writes nothing the form does not matter. After comments something else has to come than
blanks and comments, lest they be taken for the trailer. -/
def Cuts (t : Dialect) (ok : List Char → Prop) (doc : Doc) (P : Tape) : Prop :=
  ∀ indent written T rest, (∀ c ∈ indent, c = ' ') → doc.Writes indent written T →
    (T ≠ [] → ok rest) → (P.Trails → ¬(cut t rest).tape.Idle) →
    Cut.Fares (doc.Clear indent written T rest) P (cut t (T ++ rest)) (cut t rest)

/-- A document, written after something else and before text of the form `after`, makes text of
the form `before`. -/
def Leads (doc : Doc) (after before : List Char → Prop) : Prop :=
  ∀ indent T rest, (∀ c ∈ indent, c = ' ') → doc.Writes indent true T → after rest →
    before (T ++ rest)

variable {t : Dialect} {a b : Doc} {P Q : Tape} {ok mid after before : List Char → Prop}

theorem leads_anything : a.Leads ok Anything :=
  fun _ _ _ _ _ _ => trivial

theorem leads_empty : empty.Leads ok ok := by
  rintro _ _ rest _ rfl h
  exact h

/-- A text is put in front of what comes after it. -/
theorem leads_text {s : String} (h : ∀ rest, after rest → before (s.toList ++ rest)) :
    (text s).Leads after before := by
  rintro _ _ rest _ rfl hrest
  exact h rest hrest

theorem leads_freshLine (h : ∀ cs, before ('\n' :: cs)) : freshLine.Leads after before := by
  rintro _ _ rest _ rfl _
  exact h _

theorem leads_lineFeed (h : ∀ cs, before ('\n' :: cs)) : lineFeed.Leads after before := by
  rintro _ _ rest _ rfl _
  exact h _

/-- Documents in a row make text of one form after the other, from the last to the first. -/
theorem Leads.append (ha : a.Leads mid before) (hb : b.Leads after mid) :
    (a ++ b).Leads after before := by
  rintro indent _ rest hindent ⟨T₁, T₂, hT₁, hT₂, rfl⟩ hrest
  rw [List.append_assoc]
  exact ha indent T₁ _ hindent hT₁ (hb indent T₂ rest hindent hT₂ hrest)

theorem Leads.indented (h : a.Leads after before) {extra : String}
    (hextra : ∀ c ∈ extra.toList, c = ' ') : (Doc.indented extra a).Leads after before := by
  intro indent T rest hindent hT hrest
  refine h (indent ++ extra.toList) T rest (fun c hc => ?_) hT hrest
  rcases List.mem_append.1 hc with hc | hc
  · exact hindent c hc
  · exact hextra c hc

/-! ## Documents in a row -/

theorem cuts_empty : empty.Cuts t ok [] := by
  rintro _ _ _ rest _ rfl _ _
  exact Cut.fares_of_eq rfl rfl

/-- A fixed text is cut into what `cut` makes of it, if this is so before all text of the form. -/
theorem cuts_text {s : String}
    (h : ∀ rest, ok rest → cut t (s.toList ++ rest) = (cut t rest).prepend P)
    (hs : s.toList ≠ []) (hdivide : s ≠ "/=") : (text s).Cuts t ok P := by
  rintro _ _ _ rest _ rfl hrest _
  exact Cut.fares_of_eq ⟨rfl, fun h => absurd h hdivide⟩ (h rest (hrest hs))

/-- A line break and an indentation are blanks, and no pieces. -/
theorem cuts_freshLine : freshLine.Cuts t ok [] := by
  rintro indent written _ rest hindent rfl _ _
  refine Cut.fares_of_eq rfl ?_
  cases written with
  | true => simpa using cut_spaces t hindent rest
  | false => exact cut_spaces t hindent rest

theorem cuts_lineFeed : lineFeed.Cuts t ok [] := by
  rintro indent written _ rest _ rfl _ _
  refine Cut.fares_of_eq rfl ?_
  cases written <;> simp

/-- Documents in a row are cut one after the other, if the second `Leads` to text of the form
that the first one asks for. -/
theorem Cuts.append (ha : a.Cuts t mid P) (hb : b.Cuts t ok Q) (hlead : b.Leads ok mid) :
    (a ++ b).Cuts t ok (P ++ Q) := by
  intro indent written T rest hindent hT hrest htrails
  -- each part is cut before the text that follows it, whether or not its signs are clear
  have hparts {T₁ T₂ : List Char} (hT₁ : a.Writes indent written T₁)
      (hT₂ : b.Writes indent (written || !T₁.isEmpty) T₂) (heq : T = T₁ ++ T₂) :
      Cut.Fares (a.Clear indent written T₁ (T₂ ++ rest)) P (cut t (T₁ ++ (T₂ ++ rest)))
          (cut t (T₂ ++ rest)) ∧
        Cut.Fares (b.Clear indent (written || !T₁.isEmpty) T₂ rest) Q (cut t (T₂ ++ rest))
          (cut t rest) := by
    subst heq
    have hsecond := hb indent _ T₂ rest hindent hT₂ (fun hne => hrest (by simp [hne]))
      fun hQ => htrails (hQ.after P)
    refine ⟨ha indent written T₁ _ hindent hT₁ (fun hne => ?_) fun hP => ?_, hsecond⟩
    · have hwritten : (written || !T₁.isEmpty) = true := by
        cases T₁ with
        | nil => exact absurd rfl hne
        | cons => simp
      rw [hwritten] at hT₂
      exact hlead indent T₂ rest hindent hT₂ (hrest (by simp [hne]))
    · exact hsecond.not_idle fun hQ => htrails (hP.append_idle hQ)
  constructor
  · rintro ⟨T₁, T₂, h₁, h₂, rfl⟩
    obtain ⟨hfirst, hsecond⟩ := hparts h₁.writes h₂.writes rfl
    rw [List.append_assoc, hfirst.whole h₁, hsecond.whole h₂, Cut.prepend_prepend]
  · intro hnot
    obtain ⟨T₁, T₂, hT₁, hT₂, rfl⟩ := hT
    obtain ⟨hfirst, hsecond⟩ := hparts hT₁ hT₂ rfl
    rw [List.append_assoc]
    -- the sign that is lost may be in the first part or in the second
    by_cases h₁ : a.Clear indent written T₁ (T₂ ++ rest)
    · rw [hfirst.whole h₁]
      exact (hsecond.spoilt fun h₂ => hnot ⟨T₁, T₂, h₁, h₂, rfl⟩).prepend P
    · exact (hfirst.spoilt h₁).append Q

/-- Before `Anything`, it does not matter what comes next. -/
theorem Cuts.then (ha : a.Cuts t Anything P) (hb : b.Cuts t ok Q) : (a ++ b).Cuts t ok (P ++ Q) :=
  ha.append hb leads_anything

theorem Cuts.indented (h : a.Cuts t ok P) {extra : String}
    (hextra : ∀ c ∈ extra.toList, c = ' ') : (Doc.indented extra a).Cuts t ok P := by
  intro indent written T rest hindent hT hrest
  refine h (indent ++ extra.toList) written T rest (fun c hc => ?_) hT hrest
  rcases List.mem_append.1 hc with hc | hc
  · exact hindent c hc
  · exact hextra c hc

/-- The same pieces, however they are grouped. -/
theorem Cuts.pieces (h : a.Cuts t ok P) (hP : P = Q) : a.Cuts t ok Q :=
  hP ▸ h

/-- A document is cut the same before text of which less is asked. -/
theorem Cuts.imp (h : a.Cuts t mid P) (himp : ∀ cs, ok cs → mid cs) : a.Cuts t ok P :=
  fun indent written T rest hindent hT hrest =>
    h indent written T rest hindent hT fun hne => himp rest (hrest hne)

/-- What is cut the same before anything is so before text of every form. -/
theorem Cuts.anywhere (h : a.Cuts t Anything P) : a.Cuts t ok P :=
  h.imp fun _ _ => trivial

/-- Both texts of `Doc.within` have to be cut into the same pieces. -/
theorem Cuts.within {inline : String} (hinline : (text inline).Cuts t ok P) (ha : a.Cuts t ok P)
    (width : Nat) : (Doc.within width inline a).Cuts t ok P := by
  intro indent written T rest hindent hT hrest htrails
  constructor
  · rintro (hclear | hclear)
    · exact (hinline indent written T rest hindent hclear.1 hrest htrails).whole hclear
    · exact (ha indent written T rest hindent hclear.writes hrest htrails).whole hclear
  · intro hnot
    rcases hT with hT | hT
    · exact (hinline indent written T rest hindent hT hrest htrails).spoilt fun h => hnot (.inl h)
    · exact (ha indent written T rest hindent hT hrest htrails).spoilt fun h => hnot (.inr h)

end Doc

/-! ## Tokens -/

section Tokens

variable {t : Dialect} {rest : List Char} {text : String} {k : TokenKind}

/-- A significant token that `classify` finds is cut off as one piece. -/
theorem cut_token (htext : text ≠ "") (hk : k.isSignificant = true)
    (h : classify t (text.toList ++ rest) = (k, text.length)) :
    cut t (text.toList ++ rest) = (cut t rest).prepend [.token k text] := by
  have hne : text.toList ≠ [] := fun hnil => htext (by rwa [← String.toList_inj])
  rw [cut_append hne (by rw [h, String.length_toList]), String.ofList_toList]
  cases k <;> first | rfl | exact absurd hk (by decide)

/-- A document that is one token is cut as this token. -/
theorem cuts_token {ok : List Char → Prop} (htext : text ≠ "") (hk : k.isSignificant = true)
    (hdivide : text ≠ "/=")
    (h : ∀ rest, ok rest → classify t (text.toList ++ rest) = (k, text.length)) :
    (Doc.text text).Cuts t ok [.token k text] :=
  Doc.cuts_text (fun rest hrest => cut_token htext hk (h rest hrest))
    (fun hnil => htext (by rwa [← String.toList_inj])) hdivide

theorem IsWord.ne_empty (h : IsWord text) : text ≠ "" := by
  rintro rfl
  obtain ⟨⟨c, cs, hcs, -⟩, -⟩ := h
  simp at hcs

theorem IsWord.ne_divide (h : IsWord text) : text ≠ "/=" := by
  rintro rfl
  exact absurd (h.2 '/' (by simp)) (by decide)

/-- A name is cut as such before a `Boundary`. -/
theorem cuts_name (h : IsName t text) : (Doc.text text).Cuts t Boundary [.name text] :=
  cuts_token h.word.ne_empty rfl h.word.ne_divide fun _ hrest => classify_name h hrest

/-- So is a reserved word. -/
theorem cuts_word {w : Keyword} (hw : w ∈ t.keywords) :
    (Doc.text w.spelling).Cuts t Boundary [.word w] :=
  cuts_token (by cases w <;> decide) rfl (by cases w <;> decide)
    fun _ hrest => classify_keyword hw hrest

/-- The signs that no further character prolongs, so that they are cut before `Anything`. -/
def Punct.isClosed : Punct → Bool
  | .lparen | .rparen | .lbrace | .rbrace | .lbrack | .rbrack | .semicolon | .comma | .colon | .dot
  | .plusPlus | .minusMinus | .question => true
  | _ => false

theorem assign_eq_zero {c : Char} (hc : c ≠ '=') (hcompound : isCompound c = false)
    (cs : List Char) : assign (c :: cs) = 0 := by
  unfold assign
  split <;> simp_all

/-- A sign that is `isClosed` is classified by itself. -/
theorem classify_sign {p : Punct} (hp : p.isClosed = true) (rest : List Char) :
    classify t (p.spelling.toList ++ rest) = (.punct p, p.spelling.length) := by
  -- the rule for assignments looks further than at the sign itself
  have hassign {c : Char} (hc : c ≠ '=') (hcompound : isCompound c = false) :
      (⟨.assign, assign⟩ : Rule).find? (c :: rest) = none :=
    Rule.find?_eq_none_iff.2 (assign_eq_zero hc hcompound rest)
  cases p <;> first
    | exact absurd hp (by decide)
    | (cases t <;> rfl)
    | simp only [classify, rules, earlyRules, List.cons_append, List.findSome?_cons, Punct.spelling,
        String.reduceToList, List.nil_append]
      rw [hassign (by decide) (by decide)]
      cases t <;> rfl

/-- So it is cut before `Anything`. -/
theorem cuts_sign (p : Punct) (hp : p.isClosed = true) :
    (Doc.text p.spelling).Cuts t Anything [.sign p] :=
  cuts_token (by cases p <;> decide) rfl (by cases p <;> decide)
    fun rest _ => classify_sign hp rest

theorem cuts_space {ok : List Char → Prop} : (Doc.text " ").Cuts t ok [] :=
  Doc.cuts_text (fun rest _ => cut_space t rest) (by simp) (by decide)

end Tokens

/-! ## Boundaries -/

theorem boundary_cons {c : Char} {cs : List Char} (hc : isWordChar c = false) (hdot : c ≠ '.') :
    Boundary (c :: cs) :=
  ⟨hc, fun h => absurd h hdot⟩

/-- The end of a line is a `Boundary`. -/
theorem LineEnd.boundary {rest : List Char} (h : LineEnd rest) : Boundary rest := by
  cases rest with
  | nil => trivial
  | cons c cs =>
    have hc := h c rfl
    simp only [isBreak, Bool.or_eq_true, beq_iff_eq] at hc
    rcases hc with rfl | rfl <;> exact boundary_cons (by decide) (by decide)

theorem lineEnd_newline (cs : List Char) : LineEnd ('\n' :: cs) := by
  rintro c hc
  obtain rfl : '\n' = c := by simpa using hc
  rfl

namespace Doc

variable {ok : List Char → Prop}

/-- A text that begins with a sign or a blank ends the word before it, so it `Leads` to a
`Boundary`. -/
theorem leads_boundary {s : String} {c : Char} {cs : List Char} (hs : s.toList = c :: cs)
    (hc : isWordChar c = false) (hdot : c ≠ '.') : (text s).Leads ok Boundary := by
  refine leads_text fun rest _ => ?_
  rw [hs]
  exact boundary_cons hc hdot

theorem text_space_leads : (text " ").Leads ok Boundary :=
  leads_boundary rfl (by decide) (by decide)

theorem freshLine_leads_lineEnd : freshLine.Leads ok LineEnd :=
  leads_freshLine lineEnd_newline

theorem freshLine_leads_boundary : freshLine.Leads ok Boundary :=
  leads_freshLine fun cs => LineEnd.boundary (lineEnd_newline cs)

end Doc

/-- A blank after a word, which is a `Boundary`. -/
theorem Doc.Cuts.space {t : Dialect} {a : Doc} {P : Tape} (h : a.Cuts t Boundary P) :
    (a ++ Doc.text " ").Cuts t Anything P :=
  (h.append (Q := []) cuts_space Doc.text_space_leads).pieces (by simp)

/-! ## Operators -/

section Operators

variable {t : Dialect} {k : TokenKind}

/-- Text that begins with a blank. -/
def Spaced (rest : List Char) : Prop :=
  ∃ cs, rest = ' ' :: cs

theorem space_leads_spaced {ok : List Char → Prop} : (Doc.text " ").Leads ok Spaced :=
  Doc.leads_text fun rest _ => ⟨rest, rfl⟩

theorem BinaryOp.spelling_ne_empty (op : BinaryOp) : op.spelling ≠ "" := by
  cases op <;> decide

/-- An operator is cut as the token that `infixOp?` reads, before a blank. -/
theorem cuts_infixOp {op : BinaryOp} (hk : infixOp? k = some op) :
    (Doc.text op.spelling).Cuts t Spaced [.token k op.spelling] := by
  refine cuts_token op.spelling_ne_empty ?_ ?_ ?_
  · unfold infixOp? at hk
    split at hk <;> first | rfl | cases hk
  · unfold infixOp? at hk
    split at hk <;> cases hk <;> decide
  · rintro _ ⟨cs, rfl⟩
    unfold infixOp? at hk
    split at hk <;> cases hk <;> cases t <;> rfl

/-- `/=` before a blank is an assignment, if `regexp` finds nothing there. -/
theorem classify_divide (t : Dialect) {cs : List Char} (h : regexp ('/' :: '=' :: ' ' :: cs) = 0) :
    classify t ('/' :: '=' :: ' ' :: cs) = (.assign, 2) := by
  have hnone : (⟨.regexp, regexp⟩ : Rule).find? ('/' :: '=' :: ' ' :: cs) = none :=
    Rule.find?_eq_none_iff.2 h
  simp only [classify, rules, earlyRules, List.cons_append, List.findSome?_cons]
  rw [hnone]
  cases t <;> rfl

/-- `Piece.divide` is cut as such unless it begins a regular expression, and then it is
`Cut.Spoilt`. -/
theorem cuts_divide : (Doc.text "/=").Cuts t Spaced [.divide] := by
  rintro _ _ _ rest _ rfl hrest -
  obtain ⟨cs, rfl⟩ := hrest (by simp)
  constructor
  · intro hclear
    exact cut_token (by decide) rfl (classify_divide t (hclear.2 rfl))
  · intro hnot
    have hpos : 0 < regexp ('/' :: '=' :: ' ' :: cs) :=
      Nat.pos_of_ne_zero fun hzero => hnot ⟨rfl, fun _ => hzero⟩
    have hcut := cut_of_classify (d := t) (by simp) (classify_regexp t hpos rfl)
    rw [← Nat.sub_add_cancel hpos, List.take_succ_cons] at hcut
    exact ⟨[], [], _, _, rfl, congrArg Cut.tape hcut⟩

/-- The spelling of an assignment is cut as one, the sign for dividing being the special case. -/
theorem cuts_assign {op : BinaryOp} (hop : op.precedence = .assignment) :
    (Doc.text op.spelling).Cuts t Spaced [.token .assign op.spelling] := by
  by_cases hdivide : op = .divAssign
  · rw [hdivide]
    exact cuts_divide
  · refine cuts_token op.spelling_ne_empty rfl ?_ ?_
    · cases op <;> first | exact absurd rfl hdivide | decide
    · rintro _ ⟨cs, rfl⟩
      cases op <;>
        first | exact absurd hop (by decide) | exact absurd rfl hdivide | (cases t <;> rfl)

theorem BinaryOp.leads_infixText {ok : List Char → Prop} (op : BinaryOp) :
    op.infixText.Leads ok Boundary := by
  cases op with
  | comma => exact Doc.leads_boundary rfl (by decide) (by decide)
  | _ => exact (Doc.text_space_leads.append Doc.leads_anything).append Doc.leads_anything

/-- `BinaryOp.infixText`, an operator with blanks around it, is cut as the operator is before a
blank. -/
theorem BinaryOp.cuts_infixText {op : BinaryOp} (hop : op ≠ .comma) {P : Tape}
    (h : (Doc.text op.spelling).Cuts t Spaced P) : op.infixText.Cuts t Anything P := by
  have hcuts : (Doc.text " " ++ Doc.text op.spelling ++ Doc.text " ").Cuts t Anything
      ([] ++ P ++ []) :=
    (cuts_space.then h).append cuts_space space_leads_spaced
  rw [List.nil_append, List.append_nil] at hcuts
  cases op <;> first | exact absurd rfl hop | exact hcuts

/-- A comma and the blank after it. -/
theorem cut_comma (t : Dialect) (rest : List Char) :
    cut t (", ".toList ++ rest) = (cut t rest).prepend [.sign .comma] := by
  have hcomma : cut t (Punct.comma.spelling.toList ++ ' ' :: rest)
      = (cut t (' ' :: rest)).prepend [.sign .comma] :=
    cut_token (by decide) rfl (classify_sign rfl _)
  rwa [cut_space] at hcomma

theorem cuts_comma : (Doc.text ", ").Cuts t Anything [.sign .comma] :=
  Doc.cuts_text (fun rest _ => cut_comma t rest) (by simp) (by decide)

/-- What may follow an operator before its operand: nothing that makes another token of it. -/
def UnaryOp.Before (op : UnaryOp) (rest : List Char) : Prop :=
  ∃ c cs, rest = c :: cs ∧ (op.isWord = true → isWordChar c = false ∧ c ≠ '.') ∧ c ≠ '=' ∧
    (op = .neg → c ≠ '-') ∧ (op = .plus → c ≠ '+')

theorem UnaryOp.before_space (op : UnaryOp) (cs : List Char) : op.Before (' ' :: cs) :=
  ⟨' ', cs, rfl, fun _ => by decide, by decide, fun _ => by decide, fun _ => by decide⟩

/-- An operator before its operand is cut as the token that `unaryOp?` reads. -/
theorem cuts_unary {op : UnaryOp} (hk : unaryOp? k = some op) :
    (Doc.text op.spelling).Cuts t op.Before [.token k op.spelling] := by
  refine cuts_token (by cases op <;> decide) ?_ (by cases op <;> decide) ?_
  · unfold unaryOp? at hk
    split at hk <;> first | rfl | cases hk
  · rintro _ ⟨c, cs, rfl, hword, heq, hneg, hplus⟩
    -- the rules that look at the character after the sign
    have hassign {e : Char} (he : e ≠ '=') :
        (⟨.assign, assign⟩ : Rule).find? (e :: c :: cs) = none := by
      refine Rule.find?_eq_none_iff.2 ?_
      show assign (e :: c :: cs) = 0
      unfold assign
      split <;> simp_all
    have hpunct (p : Punct) (e x : Char) {xs : List Char} (hp : p.spelling.toList = e :: x :: xs)
        (hx : c ≠ x) : (Rule.punct p).find? (e :: c :: cs) = none := by
      simp [Rule.punct, fixed, startsWith, hp, Ne.symm hx]
    unfold unaryOp? at hk
    split at hk <;> cases hk
    case h_1 =>
      simp only [classify, rules, earlyRules, List.cons_append, List.findSome?_cons,
        UnaryOp.spelling, String.reduceToList, List.nil_append]
      rw [hassign (by decide), hpunct .minusMinus '-' '-' rfl (hneg rfl)]
      cases t <;> rfl
    case h_2 =>
      simp only [classify, rules, earlyRules, List.cons_append, List.findSome?_cons,
        UnaryOp.spelling, String.reduceToList, List.nil_append]
      rw [hassign (by decide), hpunct .plusPlus '+' '+' rfl (hplus rfl)]
      cases t <;> rfl
    case h_3 =>
      simp only [classify, rules, earlyRules, List.cons_append, List.findSome?_cons,
        UnaryOp.spelling, String.reduceToList, List.nil_append]
      rw [hassign (by decide), hpunct .notIdentical '!' '=' rfl heq, hpunct .notEq '!' '=' rfl heq]
      cases t <;> rfl
    case h_4 => exact classify_sign (p := .plusPlus) rfl _
    case h_5 => exact classify_sign (p := .minusMinus) rfl _
    case h_6 =>
      exact classify_keyword (k := .typeofKw) (by cases t <;> decide)
        (boundary_cons (hword rfl).1 (hword rfl).2)
    case h_7 =>
      exact classify_keyword (k := .awaitKw) (by cases t <;> decide)
        (boundary_cons (hword rfl).1 (hword rfl).2)

end Operators

/-! ## Fixed texts -/

section Fixed

variable {t : Dialect} {s : String}

/-- `cut` takes off a sign that is `isClosed`, whatever follows. -/
theorem cut_sign {p : Punct} (hp : p.isClosed = true) (rest : List Char) :
    cut t (p.spelling.toList ++ rest) = (cut t rest).prepend [.sign p] :=
  cut_token (by cases p <;> decide) rfl (classify_sign hp rest)

theorem ne_divide_of_space (hs : s.toList.getLast? = some ' ') : s ≠ "/=" := by
  rintro rfl
  exact absurd hs (by decide)

/-- A reserved word and the blank after it. -/
theorem cuts_wordSpace {w : Keyword} (hs : s.toList = w.spelling.toList ++ [' '])
    (hw : w ∈ t.keywords) : (Doc.text s).Cuts t Anything [.word w] := by
  refine Doc.cuts_text (fun rest _ => ?_) (by simp [hs])
    (ne_divide_of_space (by simp [hs]))
  have hboundary : Boundary (' ' :: rest) := boundary_cons (by decide) (by decide)
  rw [hs, List.append_assoc, List.singleton_append,
    cut_token (by cases w <;> decide) rfl (classify_keyword hw hboundary), cut_space]

/-- A reserved word between blanks. -/
theorem cuts_spaceWordSpace {w : Keyword} (hs : s.toList = ' ' :: (w.spelling.toList ++ [' ']))
    (hw : w ∈ t.keywords) : (Doc.text s).Cuts t Anything [.word w] := by
  refine Doc.cuts_text (fun rest _ => ?_) (by simp [hs])
    (ne_divide_of_space (by simp [hs, List.getLast?_cons]))
  have hboundary : Boundary (' ' :: rest) := boundary_cons (by decide) (by decide)
  rw [hs, List.cons_append, cut_space, List.append_assoc, List.singleton_append,
    cut_token (by cases w <;> decide) rfl (classify_keyword hw hboundary), cut_space]

/-- A sign between blanks. -/
theorem cuts_spaceSignSpace {p : Punct} (hs : s.toList = ' ' :: (p.spelling.toList ++ [' ']))
    (hp : p.isClosed = true) : (Doc.text s).Cuts t Anything [.sign p] := by
  refine Doc.cuts_text (fun rest _ => ?_) (by simp [hs])
    (ne_divide_of_space (by simp [hs, List.getLast?_cons]))
  rw [hs, List.cons_append, List.append_assoc, cut_space, cut_sign hp, List.singleton_append,
    cut_space]

theorem leads_space {cs : List Char} {ok : List Char → Prop} (hs : s.toList = ' ' :: cs) :
    (Doc.text s).Leads ok Boundary :=
  Doc.leads_boundary hs (by decide) (by decide)

/-- The plain assignment sign before a blank. -/
theorem cut_equals (t : Dialect) (rest : List Char) :
    cut t ('=' :: ' ' :: rest) = (cut t rest).prepend [.token .assign "="] := by
  have hequals : cut t ("=".toList ++ ' ' :: rest)
      = (cut t (' ' :: rest)).prepend [.token .assign "="] :=
    cut_token (by decide) rfl (by cases t <;> rfl)
  rwa [cut_space] at hequals

theorem equals_cuts : (Doc.text " = ").Cuts t Anything [.token .assign "="] := by
  refine Doc.cuts_text (fun rest _ => ?_) (by simp) (by decide)
  show cut t (' ' :: '=' :: ' ' :: rest) = _
  rw [cut_space, cut_equals]

theorem colon_cuts : (Doc.text ": ").Cuts t Anything [.sign .colon] := by
  refine Doc.cuts_text (fun rest _ => ?_) (by simp) (by decide)
  show cut t (Punct.colon.spelling.toList ++ ' ' :: rest) = _
  rw [cut_sign rfl, cut_space]

end Fixed

/-! ## Lists -/

/-- Pieces separated by commas, as `Doc.join` writes them. -/
def Tape.commas : List Tape → Tape
  | [] => []
  | P :: Ps => P ++ Ps.flatMap (.sign .comma :: ·)

/-- `Tape.commas` with at least two of them. -/
theorem Tape.commas_cons_cons (P Q : Tape) (Ps : List Tape) :
    commas (P :: Q :: Ps) = P ++ .sign .comma :: commas (Q :: Ps) := by
  simp [commas]

section Lists

variable {t : Dialect} {docs : List Doc} {Ps : List Tape}

/-- Documents each of which `Cuts` into pieces, before a text that prolongs no word. -/
abbrev CutAll (t : Dialect) : List Doc → List Tape → Prop :=
  List.Forall₂ (Doc.Cuts t Boundary)

theorem blanks_two : ∀ c ∈ "  ".toList, c = ' ' :=
  forall_mem_of_all (by decide)

theorem comma_leads {ok : List Char → Prop} : (Doc.text ", ").Leads ok Boundary :=
  Doc.leads_boundary rfl (by decide) (by decide)

/-- In a row by `Doc.join` they are cut into `Tape.commas`. -/
theorem CutAll.join (h : CutAll t docs Ps) :
    (Doc.join ", " docs).Cuts t Boundary (Tape.commas Ps) := by
  induction h with
  | nil => exact Doc.cuts_empty
  | @cons d P ds Ps hd hds ih =>
    cases hds with
    | nil => exact hd.pieces (by simp [Tape.commas])
    | cons hd' hds =>
      exact ((hd.append cuts_comma comma_leads).then ih).pieces (by simp [Tape.commas_cons_cons])

theorem leads_commaLines (docs : List Doc) : (Doc.commaLines docs).Leads Boundary Boundary := by
  cases docs with
  | nil => exact Doc.leads_empty
  | cons d ds =>
    exact ((Doc.freshLine_leads_boundary.append Doc.leads_anything).append
      Doc.leads_anything).append Doc.leads_anything

/-- One on each line, they are cut with a comma before each. -/
theorem CutAll.commaLines (h : CutAll t docs Ps) :
    (Doc.commaLines docs).Cuts t Boundary (Ps.flatMap (.sign .comma :: ·)) := by
  induction h with
  | nil => exact Doc.cuts_empty
  | @cons d P ds Ps hd hds ih =>
    have hcomma : (Doc.freshLine ++ Doc.text ", ").Cuts t Anything ([] ++ [.sign .comma]) :=
      Doc.cuts_freshLine.then cuts_comma
    exact (hcomma.then (hd.indented blanks_two)).append ih (leads_commaLines ds)

/-- `Doc.laidOut` is cut into the brackets, and the items with commas between them. -/
theorem CutAll.laidOut (h : CutAll t docs Ps) {p q : Punct} (hp : p.isClosed = true)
    (hq : q.isClosed = true) :
    (Doc.laidOut p.spelling q.spelling docs).Cuts t Anything
      (.sign p :: Tape.commas Ps ++ [.sign q]) := by
  have hopen : (Doc.text p.spelling).Cuts t Anything [.sign p] := cuts_sign p hp
  have hclose : (Doc.text q.spelling).Cuts t Anything [.sign q] := cuts_sign q hq
  have hspace : (Doc.text " ").Leads Anything Boundary := Doc.text_space_leads
  -- one item stands on the line of the brackets, several have a line each
  cases h with
  | nil => exact (hopen.then cuts_space).then hclose
  | @cons d P ds Ps hd hds =>
    cases hds with
    | nil =>
      have hitem := ((hopen.then (Q := []) cuts_space).then hd).append (Q := []) cuts_space hspace
      exact (hitem.then hclose).pieces (by simp [Tape.commas])
    | cons hd' hds =>
      have hblanks : (Doc.freshLine ++ Doc.text "  ").Cuts t Anything [] :=
        Doc.cuts_freshLine.then (Doc.cuts_text (fun rest _ => by simp) (by simp) (by decide))
      have hbreak : Doc.freshLine.Leads Anything Boundary := Doc.freshLine_leads_boundary
      have hitems := ((hblanks.then (hd.indented blanks_two)).append
        (CutAll.commaLines (.cons hd' hds)) (leads_commaLines _)).indented blanks_two
      have hlast := (hopen.then hitems).append (Q := []) Doc.cuts_freshLine hbreak
      exact (hlast.then hclose).pieces (by simp [Tape.commas])

/-- `cut` takes names off a text one by one. -/
theorem cut_names {ns : List String} (h : ∀ n ∈ ns, IsName t n) {rest : List Char}
    (hrest : ns ≠ [] → Boundary rest) :
    cut t ((", ".intercalate ns).toList ++ rest)
      = (cut t rest).prepend (Tape.commas (ns.map fun n => [.name n])) := by
  induction ns with
  | nil => rfl
  | cons n ns ih =>
    have hname {rest : List Char} (hrest : Boundary rest) :
        cut t (n.toList ++ rest) = (cut t rest).prepend [.name n] :=
      cut_token (h n (by simp)).word.ne_empty rfl (classify_name (h n (by simp)) hrest)
    cases ns with
    | nil => simpa [Tape.commas] using hname (hrest (by simp))
    | cons m ns =>
      have hrest' := ih (fun n hn => h n (by simp [hn])) fun _ => hrest (by simp)
      have hcomma := cut_comma t ((", ".intercalate (m :: ns)).toList ++ rest)
      -- a comma ends the name before it
      have hboundary (cs : List Char) : Boundary (", ".toList ++ cs) :=
        boundary_cons (c := ',') (by decide) (by decide)
      rw [String.intercalate_cons_cons, String.toList_append, String.toList_append,
        List.append_assoc, List.append_assoc, hname (hboundary _), hcomma, hrest']
      simp [Tape.commas_cons_cons]

/-- `Print.names` is cut into names separated by commas. -/
theorem cuts_names {ns : List String} (h : ∀ n ∈ ns, IsName t n) :
    (Print.names ns).Cuts t Boundary (Tape.commas (ns.map fun n => [.name n])) := by
  rintro _ _ _ rest _ rfl hrest -
  -- names begin as words do, so no sign is made with what comes before
  have hfirst (hne : ns ≠ []) :
      ∃ c cs, (", ".intercalate ns).toList = c :: cs ∧ isWordStart c = true := by
    obtain ⟨n, ns, rfl⟩ := List.exists_cons_of_ne_nil hne
    obtain ⟨⟨c, cs, hcs, hc⟩, -⟩ := (h n (by simp)).word
    cases ns with
    | nil => exact ⟨c, cs, by simp [hcs], hc⟩
    | cons m ns => exact ⟨c, _, by simp [String.intercalate_cons_cons, hcs]; rfl, hc⟩
  refine Cut.fares_of_eq ⟨rfl, fun hdivide => ?_⟩ (cut_names h fun hne => hrest ?_)
  · have hne : ns ≠ [] := by
      rintro rfl
      exact absurd hdivide (by decide)
    obtain ⟨c, cs, hcs, hc⟩ := hfirst hne
    rw [hdivide] at hcs
    obtain rfl : '/' = c := (List.cons.inj hcs).1
    exact absurd hc (by decide)
  · obtain ⟨c, cs, hcs, -⟩ := hfirst hne
    simp [hcs]

end Lists

end Diglot

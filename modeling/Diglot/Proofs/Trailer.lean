import Diglot.Proofs.Comments
import Diglot.Proofs.Parsed
import Diglot.Proofs.Printed

/-!
# Comments and the trailer

Whether a line comment with the marker in it is a comment or begins the trailer depends on all that
comes after it: it begins the trailer if nothing but line comments and blanks comes. So a comment
before a token stays a comment, and of the comments that a text ends with, those from the first
marker on that no comment between marks follows are read as the trailer.

- `idle_cut_of_lines`: what may follow the first line of a trailer has no tokens.
- `Barred`: text before which no trailer begins; `cut_comment_of_barred`: there a comment stays one.
- `Comment.trailing`, `Comment.remaining`: what becomes of the comments that a text ends with.
- `cut_lines`: how such comments are cut.
-/

namespace Diglot

open Lexeme

variable {t : Dialect} {cs line rest : List Char}

/-! ## Texts without tokens -/

theorem Cut.mem_tape_add {k : TokenKind} {text : String} {c : Cut} {p : Piece}
    (h : p ∈ (c.add k text).tape) :
    p ∈ c.tape ∨ p = .token k text ∨ ∃ kind, p = .comment ⟨kind, text⟩ := by
  cases k <;> simp only [Cut.add, List.mem_cons] at h <;> grind

/-- Blanks are cut into nothing but blanks: their tape is `Idle`. -/
theorem idle_cut_of_blank (h : cs.all Text.isBlank = true) : (cut t cs).tape.Idle := by
  fun_induction cut t cs with
  | case1 cs hnil =>
    intro k text htoken
    obtain ⟨-, rfl⟩ : k = .eof ∧ text = "" := by simpa using htoken
    rfl
  | case2 cs hne ih =>
    intro k text htoken
    rw [List.all_eq_true] at h
    rcases Cut.mem_tape_add htoken with hrest | heq | ⟨kind, heq⟩
    · refine ih ?_ k text hrest
      exact List.all_eq_true.2 fun c hc => h c (List.mem_of_mem_drop hc)
    · obtain ⟨-, rfl⟩ := Piece.token.inj heq
      rw [String.toList_ofList]
      exact List.all_eq_true.2 fun c hc => h c (List.mem_of_mem_take hc)
    · cases heq

/-- A line comment before a text without tokens makes another one with an `Idle` tape. -/
theorem idle_cut_line (hstart : startsWith "//" line = true)
    (hline : ∀ c ∈ line, isBreak c = false) (hrest : LineEnd rest) (h : (cut t rest).tape.Idle) :
    (cut t (line ++ rest)).tape.Idle := by
  have hcomment := lineComment_append hstart hline hrest
  obtain ⟨tail, htail⟩ := startsWith_iff.1 hstart
  have hne : line ≠ [] := by simp [htail]
  by_cases hout : outputComment (line ++ rest) = 0
  · have hpos := List.length_pos_iff.2 hne
    have hclassify := classify_lineComment t (by omega) hout
    rw [hcomment] at hclassify
    rw [cut_append hne hclassify]
    intro k text htoken
    exact h k text (by simpa [Cut.add] using htoken)
  · have hpos := Nat.pos_of_ne_zero hout
    rw [cut_of_classify (by simp [hne]) (classify_outputComment t hpos)]
    exact idle_cut_of_blank (all_blank_drop_outputComment hpos)

/-- The blanks before a line are not seen by `cut`. -/
theorem cut_indent {indent : List Char} (h : ∀ c ∈ indent, isIndent c = true) (rest : List Char) :
    cut t (indent ++ rest) = cut t rest := by
  induction indent with
  | nil => rfl
  | cons c indent ih =>
    have hc := h c (by simp)
    have hspace : isSpace c = true := by
      simp only [isIndent, Bool.or_eq_true, beq_iff_eq] at hc
      rcases hc with rfl | rfl <;> rfl
    rw [List.cons_append, cut_of_isSpace t hspace]
    exact ih fun c hc => h c (by simp [hc])

/-- Line comments with nothing but blanks after them have no tokens. These are the lines that
`trailerLines` takes. -/
theorem idle_cut_of_lines (h : (cs.drop (trailerLines cs)).all Text.isBlank = true) :
    (cut t cs).tape.Idle := by
  fun_induction trailerLines cs with
  | case1 cs hzero => exact idle_cut_of_blank h
  | case2 cs hline ih =>
    obtain ⟨start, indent, line, rest, rfl, hstart, hindent, hslashes, hbreak, hend⟩ :=
      exists_of_trailerLine hline
    have hlen := trailerLine_append hstart hindent hslashes hbreak hend
    have hdrop : (start ++ (indent ++ (line ++ rest))).drop
        (start.length + indent.length + line.length) = rest := by
      rw [← List.drop_drop, ← List.drop_drop, List.drop_left, List.drop_left, List.drop_left]
    rw [hlen] at ih h
    rw [← List.drop_drop, hdrop] at h
    rw [hdrop] at ih
    -- the line begins with a line feed, or with a carriage return before it
    have hcut : cut t (start ++ (indent ++ (line ++ rest))) = cut t (indent ++ (line ++ rest)) := by
      rcases hstart with rfl | rfl
      · exact cut_newline t _
      · exact (cut_of_isSpace t (c := '\r') rfl _).trans (cut_newline t _)
    rw [hcut, cut_indent hindent]
    exact idle_cut_line hslashes hbreak hend (ih h)

/-! ## Comments before tokens -/

/-- Text in which more comes after the `trailerLines` than blanks. -/
def Barred (E : List Char) : Prop :=
  ¬(E.drop (trailerLines E)).all Text.isBlank = true

/-- Where a token comes, no trailer goes on: the contrapositive of `idle_cut_of_lines`. -/
theorem barred_of_not_idle (h : ¬(cut t rest).tape.Idle) : Barred rest :=
  fun hblank => h (idle_cut_of_lines hblank)

/-- A line before text that is `Barred` is not the beginning of the trailer. -/
theorem outputComment_of_barred (hline : ∀ c ∈ line, isBreak c = false) (hrest : LineEnd rest)
    (h : Barred rest) : outputComment (line ++ rest) = 0 := by
  simp only [outputComment]
  rw [restOfLine_append hline hrest, List.drop_left, ← List.drop_drop, List.drop_left, if_neg h,
    ite_self]

theorem Comment.Genuine.ne_nil {c : Comment} (h : c.Genuine t) : c.text.toList ≠ [] :=
  fun hnil => h.text_ne_empty (by rwa [← String.toList_inj])

theorem Comment.Genuine.ne_divide {c : Comment} (h : c.Genuine t) : c.text ≠ "/=" := by
  obtain ⟨kind, text⟩ := c
  rintro rfl
  cases kind with
  | line => exact absurd h.1 (by decide)
  | block => exact absurd h.2 (by decide)

/-- A comment is cut as such unless `outputComment` finds the trailer there. -/
theorem cut_comment {c : Comment} (h : c.Genuine t) (hrest : LineEnd rest)
    (hout : c.kind = .line → outputComment (c.text.toList ++ rest) = 0) :
    cut t (c.text.toList ++ rest) = (cut t rest).prepend [.comment c] := by
  have hne := h.ne_nil
  obtain ⟨kind, text⟩ := c
  cases kind with
  | line =>
    have hcomment := lineComment_append h.1 h.2 hrest
    have hpos : 0 < lineComment (text.toList ++ rest) := by
      rw [hcomment]
      exact List.length_pos_iff.2 hne
    have hclassify := classify_lineComment t hpos (hout rfl)
    rw [hcomment] at hclassify
    rw [cut_append hne hclassify, String.ofList_toList]
    rfl
  | block =>
    have hclassify : classify t (text.toList ++ rest) = _ := classify_blockComment_append t h
    rw [cut_append hne (by rw [hclassify, String.length_toList]), String.ofList_toList]
    rfl

/-- Before text that is `Barred` every comment is cut as such. -/
theorem cut_comment_of_barred {c : Comment} (h : c.Genuine t) (hrest : LineEnd rest)
    (hbarred : Barred rest) :
    cut t (c.text.toList ++ rest) = (cut t rest).prepend [.comment c] := by
  refine cut_comment h hrest fun hk => outputComment_of_barred ?_ hrest hbarred
  obtain ⟨kind, text⟩ := c
  obtain rfl : kind = .line := hk
  exact h.2

/-! ## Comments at the end -/

/-- A text, if it is not empty. -/
def nonempty? (s : String) : Option String :=
  if s = "" then none else some s

theorem getD_nonempty? (s : String) : (nonempty? s).getD "" = s := by
  unfold nonempty?
  split
  · next h => exact h.symm
  · rfl

namespace Comment

/-- Whether a comment goes to the end of its line. -/
def isLine (c : Comment) : Bool :=
  c.kind == .line

/-- Whether a comment has the marker that a trailer begins with, as `startsTrailer` looks for
it. -/
def isMarked (c : Comment) : Bool :=
  c.isLine && startsTrailer c.text.toList

/-- Of the comments that a text ends with, those that are read as its trailer. The others are
`remaining`. -/
def trailing : List Comment → List Comment
  | [] => []
  | c :: cs => if c.isMarked && cs.all isLine then c :: cs else trailing cs

/-- Of the comments that a text ends with, those that stay comments. -/
def remaining : List Comment → List Comment
  | [] => []
  | c :: cs => if c.isMarked && cs.all isLine then [] else c :: remaining cs

theorem trailing_subset {cs : List Comment} : trailing cs ⊆ cs := by
  induction cs with
  | nil => exact List.nil_subset _
  | cons c cs ih =>
    rw [trailing]
    split
    · exact fun _ hc => hc
    · exact fun _ hc => List.mem_cons_of_mem _ (ih hc)

theorem remaining_subset {cs : List Comment} : remaining cs ⊆ cs := by
  induction cs with
  | nil => exact List.nil_subset _
  | cons c cs ih =>
    rw [remaining]
    split
    · exact List.nil_subset _
    · exact List.cons_subset_cons c ih

/-- Where no comment is read as the trailer, all of them remain. -/
theorem remaining_eq_self {cs : List Comment} (h : trailing cs = []) : remaining cs = cs := by
  induction cs with
  | nil => rfl
  | cons c cs ih =>
    rw [trailing] at h
    rw [remaining]
    split
    · next hmarked => simp [hmarked] at h
    · next hmarked => rw [ih (by simpa [hmarked] using h)]

theorem trailing_eq_nil {cs : List Comment} (h : ∀ c ∈ cs, c.isMarked = false) :
    trailing cs = [] := by
  induction cs with
  | nil => rfl
  | cons c cs ih =>
    rw [List.forall_mem_cons] at h
    rw [trailing, h.1]
    exact ih h.2

/-- Comments below each other: what a trailer of these comments is. -/
def joined (cs : List Comment) : String :=
  "\n".intercalate (cs.map Comment.text)

/-- Comments on lines of their own. -/
def lines (cs : List Comment) : List Char :=
  cs.flatMap fun c => '\n' :: c.text.toList

/-- The first of the comments, and then the others as `lines`. -/
theorem toList_joined (c : Comment) (cs : List Comment) :
    (joined (c :: cs)).toList = c.text.toList ++ lines cs := by
  induction cs generalizing c with
  | nil => simp [joined, lines]
  | cons c' cs ih =>
    have htail := ih c'
    simp only [joined, List.map_cons] at htail ⊢
    rw [String.intercalate_cons_cons, String.toList_append, String.toList_append, htail]
    simp [lines]

theorem joined_ne_empty {c : Comment} (h : c.Genuine t) (cs : List Comment) :
    joined (c :: cs) ≠ "" := by
  intro hempty
  have hlist := congrArg String.toList hempty
  rw [toList_joined] at hlist
  exact h.ne_nil (List.append_eq_nil_iff.1 hlist).1

end Comment

open Comment

section Lines

variable {E : List Char} {text : String}

theorem lines_cons (c : Comment) (cs : List Comment) (E : List Char) :
    lines (c :: cs) ++ E = '\n' :: (c.text.toList ++ (lines cs ++ E)) := by
  simp [lines]

theorem lineEnd_lines (cs : List Comment) (hE : LineEnd E) : LineEnd (lines cs ++ E) := by
  cases cs with
  | nil => exact hE
  | cons c cs => exact lineEnd_newline _

/-- A line comment is one further line of a trailer, and `trailerLines` goes on after it. -/
theorem trailerLines_cons (h : Genuine t text .lineComment) (cs : List Comment) (hE : LineEnd E) :
    trailerLines (lines (⟨.line, text⟩ :: cs) ++ E)
      = text.toList.length + 1 + trailerLines (lines cs ++ E) := by
  have hlen : trailerLine (['\n'] ++ ([] ++ (text.toList ++ (lines cs ++ E))))
      = 1 + 0 + text.toList.length :=
    trailerLine_append (.inl rfl) (by simp) h.1 h.2 (lineEnd_lines cs hE)
  rw [List.singleton_append, List.nil_append] at hlen
  rw [lines_cons, trailerLines, hlen, if_neg (by omega)]
  simp only [Nat.add_comm 1, Nat.zero_add, List.drop_succ_cons, List.drop_left]

/-- A comment between marks is no line of a trailer: `trailerLines` stops before it. -/
theorem trailerLines_block (h : Genuine t text .blockComment) (cs : List Comment) :
    trailerLines (lines (⟨.block, text⟩ :: cs) ++ E) = 0 ∧ ∃ tail, text.toList = '/' :: tail := by
  have hmark : startsWith "/*" text.toList = true := by
    cases hmark : startsWith "/*" text.toList with
    | true => rfl
    | false =>
      have hscan := h.2
      have hpos := length_pos_of_ne_empty h.1
      rw [blockComment, hmark, if_neg (by simp)] at hscan
      omega
  obtain ⟨tail, htail⟩ := startsWith_iff.1 hmark
  refine ⟨?_, '*' :: tail, htail⟩
  rw [lines_cons, trailerLines, if_pos]
  simp only [htail]
  rfl

/-- The comments that a text ends with are `trailerLines` if they are line comments. -/
theorem trailerLines_lines {cs : List Comment} (h : ∀ c ∈ cs, c.Genuine t)
    (hline : cs.all isLine = true) : trailerLines (lines cs ++ ['\n']) = (lines cs).length := by
  induction cs with
  | nil =>
    rw [trailerLines, if_pos (by rfl)]
    rfl
  | cons c cs ih =>
    rw [List.forall_mem_cons] at h
    rw [List.all_cons, Bool.and_eq_true] at hline
    obtain ⟨kind, text⟩ := c
    obtain rfl : kind = .line := by simpa [isLine] using hline.1
    rw [trailerLines_cons (t := t) h.1 cs (lineEnd_newline _), ih h.2 hline.2]
    simp only [lines, List.flatMap_cons, List.cons_append, List.length_cons, List.length_append]
    omega

/-- With a comment between marks among them, or before something else, comments are more than
the lines of a trailer, so the text is `Barred`. -/
theorem barred_lines {cs : List Comment} (h : ∀ c ∈ cs, c.Genuine t) (hE : LineEnd E)
    (hbarred : cs.all isLine = true → Barred E) : Barred (lines cs ++ E) := by
  induction cs with
  | nil => exact hbarred rfl
  | cons c cs ih =>
    rw [List.forall_mem_cons] at h
    obtain ⟨kind, text⟩ := c
    cases kind with
    | line =>
      rw [Barred, trailerLines_cons (t := t) h.1 cs hE, lines_cons, Nat.add_right_comm,
        List.drop_succ_cons, ← List.drop_drop, List.drop_left]
      exact ih h.2 fun hline => hbarred (by simpa [isLine] using hline)
    -- a block comment ends the trailer, and what is left is not blank
    | block =>
      obtain ⟨hzero, tail, htail⟩ := trailerLines_block (E := E) (t := t) h.1 cs
      rw [Barred, hzero, lines_cons]
      simp only [htail]
      intro hblank
      have hslash := List.all_eq_true.1 hblank '/' (by simp)
      exact absurd hslash (by decide)

/-- Comments before text that is `Barred` stay comments. -/
theorem cut_lines_of_barred {cs : List Comment} (h : ∀ c ∈ cs, c.Genuine t) (hE : LineEnd E)
    (hbarred : Barred E) : cut t (lines cs ++ E) = (cut t E).prepend (cs.map .comment) := by
  induction cs with
  | nil => rfl
  | cons c cs ih =>
    rw [List.forall_mem_cons] at h
    have hcut := cut_comment_of_barred h.1 (lineEnd_lines cs hE)
      (barred_lines h.2 hE fun _ => hbarred)
    rw [lines_cons, cut_newline, hcut, ih h.2, Cut.prepend_prepend]
    rfl

/-- The first comment of those that a text ends with begins the trailer if it has the marker and
only line comments come after it, as in `Comment.trailing`. -/
theorem outputComment_lines {cs : List Comment} (h : Genuine t text .lineComment)
    (hcs : ∀ c ∈ cs, c.Genuine t) :
    outputComment (text.toList ++ (lines cs ++ ['\n'])) =
      if startsTrailer text.toList && cs.all isLine then text.toList.length + (lines cs).length
      else 0 := by
  have hend := lineEnd_lines cs (lineEnd_newline [])
  cases hline : cs.all isLine with
  | false =>
    have hbarred := barred_lines hcs (lineEnd_newline []) (by simp [hline])
    rw [outputComment_of_barred h.2 hend hbarred, Bool.and_false]
    rfl
  | true =>
    simp only [outputComment]
    rw [startsTrailer_append hend, restOfLine_append h.2 hend, List.drop_left, ← List.drop_drop,
      List.drop_left, trailerLines_lines hcs hline, List.drop_left, Bool.and_true]
    rfl

/-- How the comments that a text ends with are cut: into those `remaining` and the trailer. -/
theorem cut_lines {cs : List Comment} (h : ∀ c ∈ cs, c.Genuine t) :
    cut t (lines cs ++ ['\n']) =
      { tape := (remaining cs).map .comment ++ [.token .eof ""],
        trailer := nonempty? (joined (trailing cs)) } := by
  induction cs with
  | nil =>
    show cut t ['\n'] = _
    rw [cut_newline, cut_nil]
    rfl
  | cons c cs ih =>
    rw [List.forall_mem_cons] at h
    rw [lines_cons, cut_newline, trailing, remaining]
    split
    · next hmarked =>
      obtain ⟨kind, text⟩ := c
      simp only [isMarked, isLine, Bool.and_eq_true, beq_iff_eq] at hmarked
      obtain ⟨⟨rfl, hstart⟩, hline⟩ := hmarked
      -- here the trailer begins, and it takes all the lines
      have hout := outputComment_lines (t := t) h.1 h.2
      rw [hstart, hline, Bool.and_self, if_pos rfl] at hout
      have hpos := List.length_pos_iff.2 h.1.ne_nil
      have hclassify := classify_outputComment t
        (Nat.lt_of_lt_of_eq (Nat.add_pos_left hpos _) hout.symm)
      rw [hout] at hclassify
      have htext : text.toList ++ (lines cs ++ ['\n'])
          = (joined (⟨.line, text⟩ :: cs)).toList ++ ['\n'] := by
        rw [toList_joined, List.append_assoc]
      have hlen : text.toList.length + (lines cs).length
          = (joined (⟨.line, text⟩ :: cs)).toList.length := by
        rw [toList_joined, List.length_append]
      rw [htext, hlen] at hclassify
      rw [htext, cut_append (by simp [toList_joined, h.1.ne_nil]) hclassify, cut_newline, cut_nil,
        String.ofList_toList, nonempty?, if_neg (joined_ne_empty h.1 cs)]
      rfl
    · next hmarked =>
      rw [cut_comment h.1 (lineEnd_lines cs (lineEnd_newline [])) fun hk => ?_, ih h.2]
      · rfl
      · obtain ⟨kind, text⟩ := c
        obtain rfl : kind = .line := hk
        rw [outputComment_lines h.1 h.2, if_neg]
        simpa [isMarked, isLine] using hmarked

end Lines

end Diglot

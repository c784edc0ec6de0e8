import Diglot.Proofs.Dispensable
import Diglot.Proofs.Eased
import Diglot.Proofs.Lossless
import Diglot.Proofs.Trivia

/-!
# Texts without some semicolons

In the block dialect a semicolon may give way to a blank where a word that closes a construct comes
next, or the end of the text. What is left of the text is read as the same tokens, and the same
comments between them, but for one thing: a comment with the marker becomes the trailer, where only
such semicolons kept it from being one. Then the program is the same but for comments and trailer.

- `cut_blanks`, `words_cut_drop_trailerLines`: blanks and lines of comments hold no tokens.
- `trailer_ne`: a comment that becomes the trailer changes it.
- `Respelt`: what is read of a text and of one without some of its semicolons.
- `Respelt.dropped`, `Respelt.kept`: one more token in front, left out or not.
- `Token.Dispensable`, `Token.respell`: the semicolons that may go, and the text without them.
- `Lexer.Run.respelt`: all tokens of a text.
- `ReadsProgram.parseText_of_words`: the program of a text with the tokens of a tape.
- `parseText_respell`: such a text holds the same program.
-/

namespace Diglot

open Lexeme Rules

section Texts

variable {d : Dialect} {k : TokenKind} {c : Char} {cs rest rest' text : List Char}

/-! ## Blanks and comments -/

/-- Blanks and line feeds are not seen by `cut`. -/
theorem cut_blanks (d : Dialect) {blanks : List Char}
    (h : ∀ c ∈ blanks, isSpace c = true ∨ c = '\n') (rest : List Char) :
    cut d (blanks ++ rest) = cut d rest := by
  induction blanks with
  | nil => rfl
  | cons c blanks ih =>
    rw [List.forall_mem_cons] at h
    rw [List.cons_append, ← ih h.2]
    rcases h.1 with hc | rfl
    · exact cut_of_isSpace d hc _
    · exact cut_newline d _

/-- A token that `classify` finds at a blank is made up of blanks. -/
theorem forall_blank_of_classify (hc : isSpace c = true)
    (h : classify d (c :: text ++ rest) = (k, (c :: text).length)) :
    ∀ e ∈ c :: text, isSpace e = true ∨ e = '\n' := by
  by_cases hnewline : newline (c :: text ++ rest) = 0
  · have hlength : (c :: text).length = run isSpace (c :: text ++ rest) :=
      (Prod.mk.inj (h.symm.trans (classify_whitespace d hc hnewline))).2
    intro e he
    left
    refine forall_take_run isSpace (c :: text ++ rest) e ?_
    rwa [← hlength, List.take_left]
  · -- a carriage return and the line feed after it
    unfold newline at hnewline
    split at hnewline
    · next tail heq =>
      obtain ⟨rfl, htail⟩ := List.cons.inj heq
      have hclass : classify d ('\r' :: '\n' :: tail) = (.newline, 2) := by cases d <;> rfl
      have hlength : text.length + 1 = 2 := by
        rw [heq] at h
        exact (Prod.mk.inj (h.symm.trans hclass)).2
      obtain ⟨e, rfl⟩ := List.length_eq_one_iff.1 (Nat.succ.inj hlength)
      obtain ⟨rfl, -⟩ := List.cons.inj htail
      simp [isSpace]
    · next tail heq =>
      obtain ⟨rfl, -⟩ := List.cons.inj heq
      cases hc
    · exact absurd rfl hnewline

/-- The trailer is found only where `outputComment` finds it. -/
theorem kind_classify_ne_outputComment (d : Dialect) (h : outputComment cs = 0) :
    (classify d cs).1 ≠ .outputComment := by
  have hkinds : .outputComment ∉ (rules d).tail.map Rule.kind := by cases d <;> decide
  rw [classify_of_outputComment_eq_zero d h]
  cases hfind : (rules d).tail.findSome? fun r => r.find? cs with
  | none => decide
  | some found =>
    obtain ⟨r, hr, hfound⟩ := List.exists_of_findSome?_eq_some hfind
    have hkind : found.1 = r.kind := by
      unfold Rule.find? at hfound
      split at hfound
      · cases hfound
      · exact congrArg Prod.fst (Option.some.inj hfound).symm
    rw [Option.getD_some, hkind]
    exact fun hout => hkinds (hout ▸ List.mem_map_of_mem hr)

theorem restOfLine_of_lineComment_pos (h : 0 < lineComment cs) :
    restOfLine cs = lineComment cs := by
  unfold lineComment at h ⊢
  split at h
  · next hstart => rw [if_pos hstart]
  · cases h

/-- A line comment holds no tokens, be it a part of the trailer or not: the `words` are those of
what follows. -/
theorem words_cut_lineComment (hne : text ≠ []) (hline : lineComment (text ++ rest) = text.length)
    (hlines : (cut d (rest.drop (trailerLines rest))).tape.words = (cut d rest).tape.words) :
    (cut d (text ++ rest)).tape.words = (cut d rest).tape.words := by
  have hpos : 0 < lineComment (text ++ rest) := by
    rw [hline]
    exact List.length_pos_iff.2 hne
  by_cases hout : outputComment (text ++ rest) = 0
  · have hclass := classify_lineComment d hpos hout
    rw [hline] at hclass
    rw [cut_append hne hclass, Cut.words_add]
    rfl
  · have hlast := Nat.pos_of_ne_zero hout
    obtain ⟨-, hlong, -⟩ := outputComment_of_pos hlast
    rw [restOfLine_of_lineComment_pos hpos, hline, List.drop_left] at hlong
    rw [cut_of_classify (by simp [hne]) (classify_outputComment d hlast), Cut.words_add, hlong,
      ← List.drop_drop, List.drop_left, hlines]
    rfl

/-- The lines that `trailerLines` takes hold no tokens. -/
theorem words_cut_drop_trailerLines (d : Dialect) (cs : List Char) :
    (cut d (cs.drop (trailerLines cs))).tape.words = (cut d cs).tape.words := by
  fun_induction trailerLines cs with
  | case1 cs _ => rfl
  | case2 cs hline ih =>
    rw [← List.drop_drop, ih]
    obtain ⟨start, indent, line, rest, rfl, hstart, hindent, hslashes, hbreak, hend⟩ :=
      exists_of_trailerLine hline
    -- one line of the trailer is blanks and a comment
    have hblank : ∀ c ∈ start ++ indent, isSpace c = true ∨ c = '\n' := by
      refine List.forall_mem_append.2 ⟨?_, fun c hc => ?_⟩
      · rcases hstart with rfl | rfl <;> simp [isSpace]
      · have hc := hindent c hc
        simp only [isIndent, Bool.or_eq_true, beq_iff_eq] at hc
        rcases hc with rfl | rfl <;> decide
    have hdrop : (start ++ (indent ++ (line ++ rest))).drop
        (start.length + indent.length + line.length) = rest := by
      rw [← List.drop_drop, ← List.drop_drop, List.drop_left, List.drop_left, List.drop_left]
    have hne : line ≠ [] := by
      rintro rfl
      cases hslashes
    rw [trailerLine_append hstart hindent hslashes hbreak hend, hdrop] at ih ⊢
    rw [← List.append_assoc, cut_blanks d hblank,
      words_cut_lineComment hne (lineComment_append hslashes hbreak hend) ih]

/-- The trailer that `cut` finds is a part of the text. -/
theorem sublist_of_trailer {trailer : String} (h : (cut d cs).trailer = some trailer) :
    trailer.toList.Sublist cs := by
  fun_induction cut d cs with
  | case1 => cases h
  | case2 cs hnil ih =>
    by_cases hk : (classify d cs).1 = .outputComment
    · rw [hk] at h
      cases h
      rw [String.toList_ofList]
      exact List.take_sublist _ _
    · rw [Cut.trailer_add hk] at h
      exact (ih h).trans (List.drop_sublist _ _)

/-- Where a text with a slash in front is all of the trailer, there was another trailer or none:
all the slashes are in the trailer, and so it is longer than any from the rest of the text.
Being `Eased` does not change the number of slashes. -/
theorem trailer_ne (heased : Eased rest rest') (hslash : '/' ∈ text)
    (hout : 0 < outputComment (text ++ rest')) :
    (cut d (text ++ rest')).trailer ≠ (cut d rest).trailer := by
  intro hsame
  have hnew : (cut d (text ++ rest')).trailer =
      some (String.ofList ((text ++ rest').take (outputComment (text ++ rest')))) := by
    rw [cut_of_classify (by rintro hnil; simp_all) (classify_outputComment d hout)]
    rfl
  have hsublist := sublist_of_trailer (hsame.symm.trans hnew)
  rw [String.toList_ofList] at hsublist
  -- the slashes are counted: all of those in the new text are in its trailer
  have hle := hsublist.count_le '/'
  have hafter : ((text ++ rest').drop (outputComment (text ++ rest'))).count '/' = 0 := by
    refine List.count_eq_zero.2 fun hmem => ?_
    have hblank := List.all_eq_true.1 (outputComment_of_pos hout).2.2 _ hmem
    revert hblank
    decide
  have htotal : (text ++ rest').count '/' =
      ((text ++ rest').take (outputComment (text ++ rest'))).count '/' := by
    conv_lhs => rw [← List.take_append_drop (outputComment (text ++ rest')) (text ++ rest')]
    rw [List.count_append, hafter, Nat.add_zero]
  have hpos : 0 < text.count '/' := List.count_pos_iff.2 hslash
  rw [List.count_append, heased.count_slash] at htotal
  omega

/-! ## One token -/

/-- One more token in front of a tape without some of its semicolons: `slim` and `add` go
together. -/
theorem Cut.slim_add {chosen : Nat → Bool} {text : String} {old : Cut}
    (hkeep : k = .punct .semicolon → chosen old.tape.tokens = false) :
    (old.add k text).tape.slim chosen =
      (({ old with tape := old.tape.slim chosen } : Cut).add k text).tape := by
  by_cases hk : k = .punct .semicolon
  · subst hk
    show Tape.slim chosen (.token _ text :: old.tape) = _
    rw [Tape.slim, if_neg fun h => by simp [hkeep rfl] at h]
    rfl
  · cases k <;> first | rfl | exact Tape.slim_token_of_ne hk _ _

/-- What is read of a text, and of one without some of its semicolons: the `words` are the same
but for these, the comments too if the trailer is, and the trailer is if no line comment is
`marked`. -/
structure Respelt (chosen : Nat → Bool) (marked : Prop) (old new : Cut) : Prop where
  words : new.tape.words = (old.tape.slim chosen).words
  tape : new.trailer = old.trailer → new.tape = old.tape.slim chosen
  trailer : ¬marked → new.trailer = old.trailer

namespace Respelt

variable {chosen : Nat → Bool} {marked : Prop}

theorem nil (d : Dialect) : Respelt chosen marked (cut d []) (cut d []) := by
  have hslim : (cut d []).tape.slim chosen = (cut d []).tape := by
    rw [cut_nil]
    exact Tape.slim_token_of_ne (by decide) _ _
  exact { words := by rw [hslim], tape := fun _ => hslim.symm, trailer := fun _ => rfl }

/-- The same token in front of both texts keeps them `Respelt`. -/
theorem add {text : String} {old new : Cut} (h : Respelt chosen marked old new)
    (hk : k ≠ .outputComment) (hkeep : k = .punct .semicolon → chosen old.tape.tokens = false) :
    Respelt chosen marked (old.add k text) (new.add k text) where
  words := by rw [Cut.slim_add hkeep, Cut.words_add, Cut.words_add, h.words]
  tape htrailer := by
    rw [Cut.trailer_add hk, Cut.trailer_add hk] at htrailer
    rw [Cut.slim_add hkeep, ← h.tape htrailer]
    cases k <;> rfl
  trailer hmarked := by
    rw [Cut.trailer_add hk, Cut.trailer_add hk, h.trailer hmarked]

/-- A semicolon gives way to a blank. It is one that `closesConstruct` allows to go, and it is
chosen. -/
theorem dropped (h : Respelt chosen marked (cut d rest) (cut d rest'))
    (hfound : classify d (';' :: rest) = (.punct .semicolon, 1))
    (hcloses : closesConstruct (cut d rest).tape.kind = true)
    (hchosen : chosen (cut d rest).tape.tokens = true) :
    Respelt chosen marked (cut d (';' :: rest)) (cut d (' ' :: rest')) := by
  have hslim : (cut d (';' :: rest)).tape.slim chosen = (cut d rest).tape.slim chosen := by
    rw [cut_of_classify (by simp) hfound]
    exact if_pos ⟨rfl, hcloses, hchosen⟩
  have htrailer : (cut d (';' :: rest)).trailer = (cut d rest).trailer := by
    rw [cut_of_classify (by simp) hfound]
    rfl
  rw [cut_space]
  exact {
    words := by rw [h.words, hslim]
    tape := fun hsame => by rw [h.tape (hsame.trans htrailer), hslim]
    trailer := fun hmarked => by rw [h.trailer hmarked, htrailer] }

/-- The trailer stays, with the blanks after it, which being `Eased` keeps. -/
theorem last {text : String} (h : Respelt chosen marked (cut d rest) (cut d rest'))
    (heased : Eased rest rest') (hne : text.toList ≠ [])
    (hfound : classify d (text.toList ++ rest) = (k, text.length))
    (hout : 0 < outputComment (text.toList ++ rest)) :
    Respelt chosen marked (cut d (text.toList ++ rest)) (cut d (text.toList ++ rest')) := by
  obtain ⟨rfl, hlength⟩ := Prod.mk.inj (hfound.symm.trans (classify_outputComment d hout))
  obtain ⟨-, -, hblank⟩ := outputComment_of_pos hout
  rw [← hlength, ← String.length_toList, List.drop_left] at hblank
  have hrest : rest' = rest := by
    refine heased.eq_of_not_mem fun hmem => ?_
    have hsemicolon := List.all_eq_true.1 hblank _ hmem
    revert hsemicolon
    decide
  subst hrest
  rw [cut_append hne (by rw [hfound, String.length_toList])]
  exact { words := h.words, tape := fun _ => h.tape rfl, trailer := fun _ => rfl }

/-- A line comment with the marker becomes the trailer. Then `trailer_ne` says that the texts
have different trailers. -/
theorem promoted {text : String} (h : Respelt chosen marked (cut d rest) (cut d rest'))
    (heased : Eased rest rest') (hne : text.toList ≠ [])
    (hfound : classify d (text.toList ++ rest) = (k, text.length))
    (hmarked : k = .lineComment → startsTrailer text.toList = true → marked)
    (hout : outputComment (text.toList ++ rest) = 0)
    (hout' : 0 < outputComment (text.toList ++ rest')) :
    Respelt chosen marked (cut d (text.toList ++ rest)) (cut d (text.toList ++ rest')) := by
  have hall : Eased (text.toList ++ rest) (text.toList ++ rest') := (Eased.refl _).append heased
  obtain ⟨hstart, -, -⟩ := outputComment_of_pos hout'
  have hpos : 0 < lineComment (text.toList ++ rest) := by
    rw [← hall.lineComment_eq]
    exact lineComment_pos_of_startsTrailer hstart
  obtain ⟨rfl, hline⟩ := Prod.mk.inj (hfound.symm.trans (classify_lineComment d hpos hout))
  rw [← String.length_toList] at hfound hline
  -- the comment is the same line in both texts
  have hline' : lineComment (text.toList ++ rest') = text.toList.length := by
    rw [hall.lineComment_eq, hline]
  have hend : LineEnd rest' := by
    intro c hc
    have hrun := restOfLine_of_lineComment_pos (lineComment_pos_of_startsTrailer hstart)
    have hdrop : (text.toList ++ rest').drop (restOfLine (text.toList ++ rest')) = rest' := by
      rw [hrun, hline', List.drop_left]
    have hnot : (!isBreak c) = false := head?_drop_run _ (text.toList ++ rest') c (hdrop ▸ hc)
    simpa using hnot
  rw [startsTrailer_append hend] at hstart
  have hslash : '/' ∈ text.toList := by
    obtain ⟨tail, htail⟩ := startsWith_iff.1 (Bool.and_eq_true_iff.1 hstart).1
    simp [htail]
  rw [cut_append hne hfound, String.ofList_toList]
  exact {
    words := (words_cut_lineComment hne hline' (words_cut_drop_trailerLines d rest')).trans h.words
    tape := fun hsame => absurd hsame (trailer_ne heased hslash hout')
    trailer := fun hnot => absurd (hmarked rfl hstart) hnot }

/-- A token stays: it is found again, or else it is where the trailer begins. -/
theorem kept {text : String} (h : Respelt chosen marked (cut d rest) (cut d rest'))
    (heased : Eased rest rest') (hne : text ≠ "")
    (hfound : classify d (text.toList ++ rest) = (k, text.length))
    (hkeep : k = .punct .semicolon → chosen (cut d rest).tape.tokens = false)
    (hmarked : k = .lineComment → startsTrailer text.toList = true → marked) :
    Respelt chosen marked (cut d (text.toList ++ rest)) (cut d (text.toList ++ rest')) := by
  have hcons : text.toList ≠ [] := by simpa using hne
  obtain ⟨c, tail, htext⟩ := List.exists_cons_of_ne_nil hcons
  have hlength : text.length = (c :: tail).length := by rw [← htext, String.length_toList]
  by_cases hc : isSpace c = true
  · have hblank : ∀ e ∈ text.toList, isSpace e = true ∨ e = '\n' := by
      rw [htext, hlength] at hfound
      rw [htext]
      exact forall_blank_of_classify hc hfound
    rw [cut_blanks d hblank, cut_blanks d hblank]
    exact h
  · -- only the rule for the trailer looks beyond the token, before or after the change
    by_cases hout : outputComment (text.toList ++ rest) = 0
    · by_cases hout' : outputComment (text.toList ++ rest') = 0
      · have hfound' : classify d (text.toList ++ rest') = (k, text.length) := by
          rw [htext, hlength] at hfound ⊢
          rw [htext] at hout hout'
          exact heased.classify_append (Bool.eq_false_iff.2 hc) hfound hout hout'
        have hk : k ≠ .outputComment := by
          rintro rfl
          exact kind_classify_ne_outputComment d hout (by rw [hfound])
        rw [← String.length_toList] at hfound hfound'
        rw [cut_append hcons hfound, cut_append hcons hfound']
        exact h.add hk hkeep
      · exact h.promoted heased hcons hfound hmarked hout (Nat.pos_of_ne_zero hout')
    · exact h.last heased hcons hfound (Nat.pos_of_ne_zero hout)

end Respelt

end Texts

/-! ## All tokens -/

namespace Token

/-- The text of some tokens with blanks for those that are chosen. Tokens are told apart by their
places. -/
def respell (chosen : Token → Bool) (ts : List Token) : String :=
  String.join (ts.map fun t => if chosen t then " " else t.text)

/-- Only semicolons are chosen, and what comes next after each, blanks and comments aside, is a
word that closes a construct or the end. This is decidable, by `decidableDispensable`. -/
def Dispensable (chosen : Token → Bool) (ts : List Token) : Prop :=
  ∀ t post, t :: post <:+ ts → chosen t = true →
    t.kind = .punct .semicolon ∧ ∃ u ∈ post.find? (·.kind.isSignificant),
      u.kind ∈ [TokenKind.keyword .endKw, .keyword .elseKw, .keyword .elsifKw, .eof]

/-- Whether the significant token that a number of others come after is chosen. `Tape.slim`
counts from the end, as a tape knows only what comes after. -/
def chosenFromEnd (chosen : Token → Bool) (ts : List Token) (n : Nat) : Bool :=
  (ts.filter (·.kind.isSignificant)).reverse[n]?.any chosen

variable {chosen : Token → Bool} {t : Token} {ts post : List Token}

theorem dispensable_nil : Dispensable chosen [] := by
  intro t post h
  cases List.suffix_nil.1 h

theorem dispensable_cons : Dispensable chosen (t :: ts) ↔
    (chosen t = true → t.kind = .punct .semicolon ∧ ∃ u ∈ ts.find? (·.kind.isSignificant),
      u.kind ∈ [TokenKind.keyword .endKw, .keyword .elseKw, .keyword .elsifKw, .eof]) ∧
    Dispensable chosen ts := by
  constructor
  · intro h
    exact ⟨h t ts (List.suffix_refl _),
      fun u post hu => h u post (hu.trans (List.suffix_cons t ts))⟩
  · rintro ⟨ht, hts⟩ u post hu
    rcases List.suffix_cons_iff.1 hu with heq | hu
    · obtain ⟨rfl, rfl⟩ := List.cons.inj heq
      exact ht
    · exact hts u post hu

instance decidableDispensable (chosen : Token → Bool) :
    (ts : List Token) → Decidable (Dispensable chosen ts)
  | [] => .isTrue dispensable_nil
  | _ :: ts =>
    have := decidableDispensable chosen ts
    decidable_of_iff _ dispensable_cons.symm

/-- Counting from the end finds the token again. -/
theorem chosenFromEnd_eq (h : t :: post <:+ ts) (ht : t.kind.isSignificant = true) :
    chosenFromEnd chosen ts (post.countP (·.kind.isSignificant)) = chosen t := by
  obtain ⟨pre, rfl⟩ := h
  simp [chosenFromEnd, ht, List.countP_eq_length_filter]

theorem respell_cons :
    respell chosen (t :: ts) = (if chosen t then " " else t.text) ++ respell chosen ts := by
  rw [respell, List.map_cons, String.join_cons, respell]

theorem respell_append {us : List Token} :
    respell chosen (ts ++ us) = respell chosen ts ++ respell chosen us := by
  induction ts with
  | nil => simp [respell]
  | cons t ts ih => rw [List.cons_append, respell_cons, respell_cons, ih, String.append_assoc]

end Token

theorem closesConstruct_of_mem {k : TokenKind}
    (h : k ∈ [TokenKind.keyword .endKw, .keyword .elseKw, .keyword .elsifKw, .eof]) :
    closesConstruct k = true := by
  revert k
  decide

theorem Tape.length_words (S : Tape) : S.words.length = S.tokens := by
  induction S with
  | nil => rfl
  | cons p S ih => cases p <;> simp [words, tokens, ih]

namespace Lexer

variable {l last : Lexer} {ts : List Token} {chosen : Token → Bool} {marked : Prop}

/-- The tokens that are still to be read are as many as the significant ones among `tokens`. -/
theorem tokens_cut (l : Lexer) :
    (cut l.dialect l.rest).tape.tokens = l.tokens.countP (·.kind.isSignificant) := by
  rw [← Tape.length_words, ← significant_eq, significant, List.length_map,
    List.countP_eq_length_filter]

/-- The next token to be read is the first significant one among `tokens`. -/
theorem kind_cut {u : Token} (h : l.tokens.find? (·.kind.isSignificant) = some u) :
    (cut l.dialect l.rest).tape.kind = u.kind := by
  rw [← Tape.firstKind_words, ← significant_eq, significant, firstKind, List.head?_map,
    List.head?_filter, h]
  rfl

/-- A text without some of its semicolons, token by token: each one is `dropped` or `kept`. -/
theorem Run.respelt {all : List Token} (h : l.Run ts last) (hlast : last.rest = [])
    (hsuffix : ts ++ [last.stop] <:+ all) (hchosen : Token.Dispensable chosen all)
    (hmarked : ∀ t ∈ ts, t.kind = .lineComment → startsTrailer t.text.toList = true → marked) :
    Eased l.rest (Token.respell chosen ts).toList ∧
      Respelt (Token.chosenFromEnd chosen all) marked (cut l.dialect l.rest)
        (cut l.dialect (Token.respell chosen ts).toList) := by
  -- from the last token to the first, as a tape is told by what comes after
  induction h with
  | nil l =>
    rw [hlast]
    exact ⟨.nil, .nil l.dialect⟩
  | @cons l l₁ last t ts hstep hts ih =>
    rw [List.forall_mem_cons] at hmarked
    have htokens := hts.tokens hlast
    have htail : ts ++ [last.stop] <:+ t :: (ts ++ [last.stop]) := List.suffix_cons _ _
    obtain ⟨heased, hrespelt⟩ := ih hlast (htail.trans hsuffix) hmarked.2
    rw [hstep.dialect] at hrespelt
    have hfound := hstep.found
    rw [hstep.rest] at hfound ⊢
    rw [Token.respell_cons, String.toList_append]
    have hnumber : t.kind.isSignificant = true →
        Token.chosenFromEnd chosen all (cut l.dialect l₁.rest).tape.tokens = chosen t := by
      intro ht
      rw [← hstep.dialect, l₁.tokens_cut, htokens]
      exact Token.chosenFromEnd_eq hsuffix ht
    by_cases ht : chosen t = true
    · rw [if_pos ht]
      obtain ⟨hk, u, hu, hcloses⟩ := hchosen t _ hsuffix ht
      rw [hk] at hfound
      have htext : t.text = ";" := genuine_of_classify_append hfound
      rw [htext] at hfound ⊢
      refine ⟨.blank heased, hrespelt.dropped hfound ?_ ?_⟩
      · rw [← hstep.dialect, kind_cut (by rw [htokens]; exact hu)]
        exact closesConstruct_of_mem hcloses
      · rw [hnumber (by rw [hk]; rfl), ht]
    · rw [if_neg ht]
      refine ⟨(Eased.refl _).append heased, hrespelt.kept heased hstep.text hfound ?_ hmarked.1⟩
      intro hk
      rw [hnumber (by rw [hk]; rfl)]
      exact Bool.eq_false_iff.2 ht

/-- A whole text without some of its semicolons is `Respelt`. -/
theorem respelt_tokens (hchosen : Token.Dispensable chosen l.tokens) :
    Respelt (Token.chosenFromEnd chosen l.tokens)
      (∃ t ∈ l.tokens, t.kind = .lineComment ∧ startsTrailer t.text.toList = true)
      (cut l.dialect l.rest) (cut l.dialect (Token.respell chosen l.tokens).toList) := by
  obtain ⟨ts, last, hrun, hlast⟩ := l.exists_run
  have htokens := hrun.tokens hlast
  -- the end is no semicolon
  have hstop : chosen last.stop = false := by
    refine Bool.eq_false_iff.2 fun hstop => ?_
    have hk := (hchosen last.stop [] ⟨ts, htokens.symm⟩ hstop).1
    cases hk
  have hrespell : Token.respell chosen l.tokens = Token.respell chosen ts := by
    rw [htokens, Token.respell_append, Token.respell_cons, hstop]
    exact String.append_empty
  rw [hrespell]
  refine (hrun.respelt hlast ⟨[], htokens.symm⟩ hchosen fun t ht hk hstart => ?_).2
  exact ⟨t, htokens ▸ List.mem_append_left _ ht, hk, hstart⟩

/-- Where no token is chosen `respell` leaves the text as it is. -/
theorem respell_tokens_eq (h : ∀ t ∈ l.tokens, chosen t = false) :
    (Token.respell chosen l.tokens).toList = l.rest := by
  obtain ⟨ts, last, hrun, hlast⟩ := l.exists_run
  have htexts : Token.respell chosen l.tokens = String.join (l.tokens.map (·.text)) := by
    refine congrArg String.join (List.map_congr_left fun t ht => ?_)
    rw [h t ht]
    rfl
  rw [htexts, hrun.rest, hlast, hrun.tokens hlast, List.map_append, String.join_append,
    List.append_nil]
  simp [stop]

/-- A text with a semicolon that is `Dispensable` does not begin with the end. -/
theorem kind_ne_eof_of_chosen {t : Token} (hchosen : Token.Dispensable chosen l.tokens)
    (ht : t ∈ l.tokens) (htrue : chosen t = true) : (cut l.dialect l.rest).tape.kind ≠ .eof := by
  obtain ⟨pre, post, hsplit⟩ := List.mem_iff_append.1 ht
  have hk := (hchosen t post ⟨pre, hsplit.symm⟩ htrue).1
  have hmem : (t.kind, t.text) ∈ l.significant :=
    List.mem_map.2 ⟨t, List.mem_filter.2 ⟨ht, by rw [hk]; rfl⟩, rfl⟩
  rw [← l.tape_reader, Reader.kind_tape]
  exact kind_reader_ne_eof ⟨_, hmem, by simp [hk]⟩

end Lexer

/-! ## Tapes of readers -/

/-- Every tape that ends in a token is that of a `Reader`. -/
theorem Tape.exists_reader (init : Tape) (k : TokenKind) (t : String) :
    ∃ r : Reader, r.tape = init ++ [.token k t] := by
  have hwords : ∃ w ws, init ++ [.token k t] = Word.pieces w ++ List.flatMap Word.pieces ws := by
    induction init with
    | nil => exact ⟨⟨[], ⟨k, t, Loc.startOf ""⟩⟩, [], rfl⟩
    | cons p init ih =>
      obtain ⟨w, ws, hw⟩ := ih
      rw [List.cons_append, hw]
      cases p with
      | comment c => exact ⟨{ w with comments := c :: w.comments }, ws, rfl⟩
      | token k t => exact ⟨⟨[], ⟨k, t, Loc.startOf ""⟩⟩, w :: ws, rfl⟩
  obtain ⟨w, ws, hw⟩ := hwords
  refine ⟨{ pending := w.comments, current := w.token, ahead := ws }, ?_⟩
  rw [hw, Reader.tape, Word.pieces, List.append_assoc]
  rfl

/-- Leaving out semicolons, as `slim` does, leaves the end where it is. -/
theorem Tape.slim_append_end (chosen : Nat → Bool) (init : Tape) (t : String) :
    ∃ init', init'.Sublist init ∧
      Tape.slim chosen (init ++ [.token .eof t]) = init' ++ [.token .eof t] := by
  induction init with
  | nil => exact ⟨[], .slnil, slim_token_of_ne (by decide) _ _⟩
  | cons p init ih =>
    obtain ⟨init', hsublist, hslim⟩ := ih
    cases p with
    | comment c =>
      refine ⟨.comment c :: init', hsublist.cons_cons _, ?_⟩
      rw [List.cons_append, slim, hslim]
      rfl
    | token k t =>
      rw [List.cons_append, slim, hslim]
      split
      · exact ⟨init', hsublist.cons _, rfl⟩
      · exact ⟨.token k t :: init', hsublist.cons_cons _, rfl⟩

/-- A tape without some of its semicolons is `Proper` again. -/
theorem Tape.Proper.slim {d : Dialect} {S : Tape} (h : S.Proper d) (chosen : Nat → Bool) :
    (S.slim chosen).Proper d := by
  obtain ⟨init, t, rfl, hinit⟩ := h.ends
  obtain ⟨init', hsublist, hslim⟩ := slim_append_end chosen init t
  have hsubset := (hsublist.append_right [Piece.token .eof t]).subset
  rw [hslim]
  exact {
    genuine := fun k t ht => h.genuine k t (hsubset ht)
    line := fun t ht => h.line t (hsubset ht)
    block := fun t ht => h.block t (hsubset ht)
    ends := ⟨init', t, rfl, fun u hu => hinit u (hsublist.subset hu)⟩ }

/-! ## Programs -/

/-- A text with the `words` of a tape holds the program that is derived from the tape, but for
comments and trailer, which `Program.strip` takes off. -/
theorem ReadsProgram.parseText_of_words {d : Dialect} {S : Tape} {trailer : Option String}
    {p : Program} (h : ReadsProgram d S trailer p) (hS : S.Proper d) (hkind : S.kind ≠ .eof)
    (file : String) {text : String} (hwords : (cut d text.toList).tape.words = S.words) :
    ∃ q, parseText d file text = .ok (some q) ∧ q.strip = p.strip := by
  obtain ⟨init, t, hends, -⟩ := hS.ends
  obtain ⟨r, hr⟩ := Tape.exists_reader init .eof t
  rw [← hends] at hr
  subst hr
  -- the reader of the text and one of the tape see the same words, so they do the same
  have halike : (Lexer.ofText d file text).reader.Alike r := by
    rw [Reader.Alike, ← Reader.words_tape, ← Reader.words_tape, Lexer.tape_reader]
    exact hwords
  have hr : r.current.kind ≠ .eof := by rwa [← r.kind_tape]
  have hnew : (Lexer.ofText d file text).reader.current.kind ≠ .eof := by
    rwa [Token.kind_eq_of_word halike.current]
  obtain ⟨r', hrun⟩ := h.run_program? hS
  rw [Rules.run_program? hr, ← halike.length_ahead] at hrun
  rw [parseText_eq, Rules.run_program? hnew]
  have hagree := Rules.agree_programFrom (d := d)
    (Grammar.agrees_ofDepth d (Lexer.ofText d file text).reader.ahead.length)
    (Lexer.ofText d file text).reader.pending r.pending (cut d text.toList).trailer trailer
    (r := { (Lexer.ofText d file text).reader with pending := [] })
    (s := { r with pending := [] }) halike
  rw [hrun] at hagree
  generalize (Rules.programFrom d _ _ _).run _ = outcome at hagree ⊢
  cases outcome with
  | error e => exact hagree.elim
  | ok result =>
    obtain ⟨q?, s⟩ := result
    obtain ⟨q, rfl, hstrip⟩ := Option.map_eq_some_iff.1 hagree.1
    exact ⟨q, rfl, hstrip⟩

theorem ReadsProgram.trailer_eq {d : Dialect} {S : Tape} {trailer : Option String} {p : Program}
    (h : ReadsProgram d S trailer p) : p.trailer = trailer.getD "" := by
  cases h
  rfl

/-- The program tells the trailer of its text, or that there is none, so two texts with one
program agree on what `cut` finds. -/
theorem trailer_eq_of_parseText {d : Dialect} {file file' text text' : String} {p : Program}
    (h : parseText d file text = .ok (some p)) (h' : parseText d file' text' = .ok (some p)) :
    (cut d text'.toList).trailer = (cut d text.toList).trailer := by
  have hsame : (cut d text'.toList).trailer.getD "" = (cut d text.toList).trailer.getD "" := by
    rw [← (reads_of_parseText h).trailer_eq, ← (reads_of_parseText h').trailer_eq]
  -- a trailer is not empty
  cases htrailer : (cut d text.toList).trailer <;>
    cases htrailer' : (cut d text'.toList).trailer <;> rw [htrailer, htrailer'] at hsame
  · exact absurd hsame (genuine_trailer htrailer').1
  · exact absurd hsame.symm (genuine_trailer htrailer).1
  · rw [Option.getD_some, Option.getD_some] at hsame
    rw [hsame]

/-- **Semicolons before a closing word may go.** Take a text in the block dialect that holds a
program, and any set of its semicolons each of which comes before a word that closes a construct or
before the end. With blanks in their place the text still holds a program, the same but for comments
and trailer. It is the very same program if and only if the text has the same trailer as before, and
so whenever no line comment has the trailer's marker. -/
theorem parseText_respell {file text : String} {p : Program} {chosen : Token → Bool}
    (hp : parseText .block file text = .ok (some p))
    (hchosen : Token.Dispensable chosen (Lexer.ofText .block file text).tokens) :
    ∃ q, parseText .block file (Token.respell chosen (Lexer.ofText .block file text).tokens) =
        .ok (some q) ∧
      q.strip = p.strip ∧
      (q = p ↔ Token.trailer? (Lexer.ofText .block file
          (Token.respell chosen (Lexer.ofText .block file text).tokens)).tokens =
        Token.trailer? (Lexer.ofText .block file text).tokens) ∧
      ((∀ t ∈ (Lexer.ofText .block file text).tokens, t.kind = .lineComment →
        startsTrailer t.text.toList = false) → q = p) := by
  rw [Lexer.trailer?_tokens, Lexer.trailer?_tokens]
  have hrespelt : Respelt _ _ (cut .block text.toList) (cut .block _) :=
    Lexer.respelt_tokens hchosen
  have hreads := reads_of_parseText hp
  have hslim := hreads.slim (Token.chosenFromEnd chosen (Lexer.ofText .block file text).tokens)
  generalize hnew : Token.respell chosen (Lexer.ofText .block file text).tokens = new at hrespelt ⊢
  -- with the same trailer the tape is the old one without the semicolons
  by_cases htrailer : (cut .block new.toList).trailer = (cut .block text.toList).trailer
  · rw [← hrespelt.tape htrailer, ← htrailer] at hslim
    exact ⟨p, parseText_of_reads file hslim, rfl, iff_of_true rfl htrailer, fun _ => rfl⟩
  · -- without tokens no semicolon could have been chosen
    have hkind : (cut .block text.toList).tape.kind ≠ .eof := by
      by_contra hkind
      refine htrailer ?_
      rw [← hnew, Lexer.respell_tokens_eq fun t ht => Bool.eq_false_iff.2 fun htrue =>
        Lexer.kind_ne_eof_of_chosen hchosen ht htrue hkind]
      rfl
    rw [← Tape.kind_slim_of_ne hreads.kind_ne_semicolon] at hkind
    obtain ⟨q, hq, hstrip⟩ :=
      hslim.parseText_of_words ((proper_cut _ _).slim _) hkind file hrespelt.words
    refine ⟨q, hq, hstrip, iff_of_false ?_ htrailer, fun hnone => absurd ?_ htrailer⟩
    · rintro rfl
      exact htrailer (trailer_eq_of_parseText hp hq)
    · refine hrespelt.trailer ?_
      rintro ⟨t, ht, hk, hstart⟩
      exact absurd hstart (Bool.eq_false_iff.1 (hnone t ht hk))

/-- Before the second branch and before the end a semicolon goes, and the one between stays. -/
theorem parseText_respell_branches :
    ∃ p, parseText .block "f" "if a then b; /**/ else c; end d;" = .ok (some p) ∧
      Token.Dispensable (fun t => t.kind == .punct .semicolon && t.loc.offset != 24)
        (Lexer.ofText .block "f" "if a then b; /**/ else c; end d;").tokens ∧
      Token.respell (fun t => t.kind == .punct .semicolon && t.loc.offset != 24)
        (Lexer.ofText .block "f" "if a then b; /**/ else c; end d;").tokens =
          "if a then b  /**/ else c; end d " ∧
      parseText .block "f" "if a then b  /**/ else c; end d " = .ok (some p) := by
  have hholds : ((parseText .block "f" "if a then b; /**/ else c; end d;").toOption.bind
      id).isSome = true := by
    rw [parseText, parse, Lexer.run, Lexer.tokens_ofText]
    decide +kernel
  obtain ⟨p, hp⟩ := Option.isSome_iff_exists.1 hholds
  obtain ⟨p?, hp?, rfl⟩ := Option.bind_eq_some_iff.1 hp
  obtain ⟨hchosen, hrespell, hnone⟩ :
      Token.Dispensable (fun t => t.kind == .punct .semicolon && t.loc.offset != 24)
        (Lexer.ofText .block "f" "if a then b; /**/ else c; end d;").tokens ∧
      Token.respell (fun t => t.kind == .punct .semicolon && t.loc.offset != 24)
        (Lexer.ofText .block "f" "if a then b; /**/ else c; end d;").tokens =
          "if a then b  /**/ else c; end d " ∧
      ∀ t ∈ (Lexer.ofText .block "f" "if a then b; /**/ else c; end d;").tokens,
        t.kind = .lineComment → startsTrailer t.text.toList = false := by
    rw [Lexer.tokens_ofText]
    decide +kernel
  obtain ⟨q, hq, -, -, hsame⟩ := parseText_respell (eq_ok_of_toOption hp?) hchosen
  rw [hrespell, hsame hnone] at hq
  exact ⟨p, eq_ok_of_toOption hp?, hchosen, hrespell, hq⟩

/-- A comment with the marker becomes the trailer when the semicolon after it goes. -/
theorem parseText_respell_marker :
    parseText .block "f" "a // OUTPUT: x\n;" = .ok (some
      { leading := [], moduleName := none, imports := [],
        body := [.statement (.expr (.symbol "a")), .comments [⟨.line, "// OUTPUT: x"⟩]],
        trailer := "" }) ∧
    Token.Dispensable (fun t => t.kind == .punct .semicolon)
      (Lexer.ofText .block "f" "a // OUTPUT: x\n;").tokens ∧
    Token.respell (fun t => t.kind == .punct .semicolon)
      (Lexer.ofText .block "f" "a // OUTPUT: x\n;").tokens = "a // OUTPUT: x\n " ∧
    parseText .block "f" "a // OUTPUT: x\n " = .ok (some
      { leading := [], moduleName := none, imports := [],
        body := [.statement (.expr (.symbol "a"))], trailer := "// OUTPUT: x" }) := by
  refine ⟨eq_ok_of_toOption ?_, and_assoc.1 ⟨?_, eq_ok_of_toOption ?_⟩⟩
  · rw [parseText, parse, Lexer.run, Lexer.tokens_ofText]
    decide +kernel
  · rw [Lexer.tokens_ofText]
    decide +kernel
  · rw [parseText, parse, Lexer.run, Lexer.tokens_ofText]
    decide +kernel

end Diglot

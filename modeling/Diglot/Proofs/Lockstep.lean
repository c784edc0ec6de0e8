import Diglot.Proofs.Lossless
import Mathlib.Data.List.Forall2

/-!
# One text in both dialects

A dialect decides which words are reserved and nothing else about tokens. Two lexers that read one
text in the two dialects therefore stay abreast: a word that only one of them reserves is a name for
the other, and both take all of it.

- `Counterparts`, `Token.Counterpart`: the kinds and tokens of one piece of text in both dialects.
- `Lexeme.counterparts_classify`: what the rules of the two dialects find.
- `Lexer.Abreast`, `Lexer.Abreast.scan`: two lexers at one place, and what reading a token does.
- `Lexer.tokens_counterpart`: the tokens of a text in the two dialects.
-/

namespace Diglot

open Lexeme

/-! ## Words -/

/-- The words of the block dialect that the brace dialect leaves free. -/
def blockWords : List String :=
  ["do", "end", "elsif", "fn", "then"]

/-- The kinds that a piece of text has in the brace dialect and in the block dialect: a name and
a reserved word where only one of them reserves it, and the same kind otherwise. The words in
question are `function` and the `blockWords`. -/
def Counterparts (text : String) (inBrace inBlock : TokenKind) : Prop :=
  if text = "function" then inBrace = .keyword .functionKw ∧ inBlock = .symbol
  else if text ∈ blockWords then
    inBrace = .symbol ∧ ∃ k : Keyword, inBlock = .keyword k ∧ k.spelling = text
  else inBrace = inBlock

theorem Counterparts.of_eq {text : String} {k : TokenKind} (h : text ∉ "function" :: blockWords) :
    Counterparts text k k := by
  rw [List.mem_cons, not_or] at h
  rw [Counterparts, if_neg h.1, if_neg h.2]

/-- The dialects agree about every other word: `Dialect.keyword?` gives the same. -/
theorem keyword?_eq {word : String} (h : word ∉ "function" :: blockWords) :
    Dialect.brace.keyword? word = Dialect.block.keyword? word := by
  have hown (d : Dialect) : (d.ownKeywords.find? fun k => k.spelling == word) = none := by
    rw [List.find?_eq_none]
    intro k hk hword
    obtain rfl : k.spelling = word := by simpa using hword
    revert k
    cases d <;> decide
  simp only [Dialect.keyword?, Dialect.keywords, List.find?_append, hown]

/-- A word has kinds that are `Counterparts`. -/
theorem counterparts_wordKind (word : String) :
    Counterparts word (Dialect.brace.wordKind word) (Dialect.block.wordKind word) := by
  by_cases hown : word ∈ "function" :: blockWords
  · simp only [blockWords, List.mem_cons, List.not_mem_nil, or_false] at hown
    rcases hown with rfl | rfl | rfl | rfl | rfl | rfl
    · exact ⟨rfl, rfl⟩
    · exact ⟨rfl, .doKw, rfl, rfl⟩
    · exact ⟨rfl, .endKw, rfl, rfl⟩
    · exact ⟨rfl, .elsifKw, rfl, rfl⟩
    · exact ⟨rfl, .fnKw, rfl, rfl⟩
    · exact ⟨rfl, .thenKw, rfl, rfl⟩
  · have hkind : Dialect.brace.wordKind word = Dialect.block.wordKind word := by
      rw [Dialect.wordKind, Dialect.wordKind, keyword?_eq hown]
    rw [hkind]
    exact .of_eq hown

/-! ## Rules -/

namespace Lexeme

variable {c : Char} {cs : List Char}

/-- The rules know a dialect only by the word at the start of the text, the `leadingWord`. -/
theorem classify_congr {d d' : Dialect}
    (h : d.keyword? (leadingWord cs) = d'.keyword? (leadingWord cs)) :
    classify d cs = classify d' cs := by
  unfold Dialect.keyword? at h
  simp only [classify, rules, List.findSome?_append, findSome?_keywords, h]

/-- A text that does not begin as words do is none of the `blockWords`, nor `function`. -/
theorem not_mem_of_isWordStart {text : String} (hc : isWordStart c = false)
    (htext : text.toList <+: c :: cs) : text ∉ "function" :: blockWords := by
  intro hmem
  have hwords : ∀ w ∈ "function" :: blockWords, IsWord w := by decide
  obtain ⟨⟨e, tail, htail, he⟩, -⟩ := hwords text hmem
  rw [htail, List.cons_prefix_cons] at htext
  rw [htext.1, hc] at he
  cases he

/-- In both dialects `classify` takes the same characters, and finds `Counterparts`. -/
theorem counterparts_classify (hcs : cs ≠ []) :
    (classify .brace cs).2 = (classify .block cs).2 ∧
      Counterparts (String.ofList (cs.take (classify .brace cs).2)) (classify .brace cs).1
        (classify .block cs).1 := by
  cases cs with
  | nil => exact absurd rfl hcs
  | cons c cs =>
    cases hc : isWordStart c with
    | true =>
      -- a word is found whole in either dialect, and nothing else depends on the dialect
      have hword (d : Dialect) : classify d (c :: cs)
          = (d.wordKind (leadingWord (c :: cs)), (leadingWord (c :: cs)).length) := by
        rw [classify_word d hc, Dialect.wordKind]
        split
        · rfl
        · cases d.keyword? (leadingWord (c :: cs)) <;> rfl
      have htake : String.ofList ((c :: cs).take (leadingWord (c :: cs)).length)
          = leadingWord (c :: cs) := by
        rw [length_leadingWord, take_run]
        rfl
      rw [hword, hword, htake]
      exact ⟨rfl, counterparts_wordKind _⟩
    | false =>
      have hlead : (leadingWord (c :: cs)).toList <+: c :: cs := by
        rw [leadingWord, String.toList_ofList]
        exact List.takeWhile_prefix _
      have htaken (n : Nat) : (String.ofList ((c :: cs).take n)).toList <+: c :: cs := by
        rw [String.toList_ofList]
        exact List.take_prefix _ _
      rw [classify_congr (keyword?_eq (not_mem_of_isWordStart hc hlead))]
      exact ⟨rfl, .of_eq (not_mem_of_isWordStart hc (htaken _))⟩

end Lexeme

/-! ## Lexers -/

/-- Tokens that the brace dialect and the block dialect give to one piece of a text. -/
structure Token.Counterpart (t u : Token) : Prop where
  text : t.text = u.text
  loc : t.loc = u.loc
  kind : Counterparts t.text t.kind u.kind

namespace Lexer

/-- Two lexers at one place of a text, one for each dialect. -/
structure Abreast (l l' : Lexer) : Prop where
  brace : l.dialect = .brace
  block : l'.dialect = .block
  loc : l.loc = l'.loc
  rest : l.rest = l'.rest

variable {l l' : Lexer}

theorem abreast_ofText (file text : String) :
    Abreast (ofText .brace file text) (ofText .block file text) :=
  ⟨rfl, rfl, rfl, rfl⟩

/-- Neither of two `Counterparts` spans lines, or both do and are of one kind. -/
theorem spansLines_of_counterparts {text : String} {k k' : TokenKind}
    (h : Counterparts text k k') : k.spansLines = k'.spansLines := by
  unfold Counterparts at h
  split at h
  · rw [h.1, h.2]
    rfl
  · split at h
    · obtain ⟨hk, _, hk', -⟩ := h
      rw [hk, hk']
      rfl
    · rw [h]

/-- Reading a token with `scan` leaves two lexers `Abreast`. -/
theorem Abreast.scan (h : l.Abreast l') (hne : l.rest ≠ []) :
    l.scan.1.Counterpart l'.scan.1 ∧ l.scan.2.Abreast l'.scan.2 := by
  obtain ⟨d, loc, rest⟩ := l
  obtain ⟨d', loc', rest'⟩ := l'
  obtain ⟨rfl, rfl, rfl, rfl⟩ := h
  obtain ⟨hlength, hkind⟩ := counterparts_classify hne
  simp only [Lexer.scan, List.isEmpty_iff, hne, if_false]
  refine ⟨⟨?_, rfl, hkind⟩, rfl, rfl, ?_, ?_⟩
  · simp only [hlength]
  · simp only [Loc.after, spansLines_of_counterparts hkind, hlength]
  · simp only [hlength]

/-- Two lexers that stay `Abreast` read counterparts up to the end. -/
theorem Abreast.tokens (h : l.Abreast l') :
    List.Forall₂ Token.Counterpart l.tokens l'.tokens := by
  fun_induction Lexer.tokens l generalizing l' with
  | case1 l hend =>
    have hnil : l.rest = [] := by simpa using hend
    have hnil' : l'.rest = [] := by rw [← h.rest, hnil]
    have hempty : "" ∉ "function" :: blockWords := by decide
    rw [tokens_of_rest_eq_nil hnil', scan_of_rest_eq_nil hnil]
    exact .cons ⟨rfl, h.loc, .of_eq hempty⟩ .nil
  | case2 l hmore ih =>
    have hne : l.rest ≠ [] := by simpa using hmore
    have hne' : l'.rest ≠ [] := by rwa [← h.rest]
    obtain ⟨htoken, hafter⟩ := h.scan hne
    rw [tokens_of_rest_ne_nil hne']
    exact .cons htoken (ih hafter)

/-- **Dialects differ in words only**: read in the two dialects, a text has the same number of
tokens up to and including the end, and one by one these have the same text, line, column and
offset. They have the same kind, except that `function` is reserved in one dialect and `do`, `end`,
`elsif`, `fn` and `then` are in the other one, and are names where they are not. -/
theorem tokens_counterpart (file text : String) :
    List.Forall₂ Token.Counterpart (ofText .brace file text).tokens
      (ofText .block file text).tokens :=
  (abreast_ofText file text).tokens

end Lexer

end Diglot

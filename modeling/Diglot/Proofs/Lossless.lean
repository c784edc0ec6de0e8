import Diglot.Proofs.Cutting

/-!
# Nothing of a text is lost

Reading a text token by token comes to its end, and the texts of the tokens are the text. Each token
is what the rules find where the ones before it end, with all of the length that they find: no rule
takes nothing, and none takes more than there is. At the end the lexer stays where it is.

- `Lexer.calls`: the tokens of some calls, one after the other.
- `Lexer.Step`, `Lexer.scan_step`: what reading one token does.
- `Lexer.Run`: reading several tokens, none of which marks the end.
- `Lexer.exists_run`: reading comes to the end.
- `Lexer.lossless`: the tokens of a text, their offsets, and what comes after them.
-/

namespace Diglot

open Lexeme

namespace Lexer

/-- The tokens that a number of calls of `next` give, one after the other, and the lexer after
them. -/
def calls (v : Visibility) : Nat → Lexer → List Token × Lexer
  | 0, l => ([], l)
  | n + 1, l => ((l.next v).1 :: ((l.next v).2.calls v n).1, ((l.next v).2.calls v n).2)

/-- Where everything is seen, a call gives the next token of `scan`, whatever it is. -/
theorem next_all (l : Lexer) : l.next .all = l.scan :=
  next_of_not_hides rfl

/-- More calls go on where the first ones have stopped. -/
theorem calls_add (v : Visibility) (m n : Nat) (l : Lexer) :
    l.calls v (m + n) =
      ((l.calls v m).1 ++ ((l.calls v m).2.calls v n).1, ((l.calls v m).2.calls v n).2) := by
  induction m generalizing l with
  | zero => simp [calls]
  | succ m ih => rw [Nat.succ_add, calls, calls, ih, List.cons_append]

/-- The mark of the end, `eof`, that a lexer gives when nothing is left. -/
def stop (l : Lexer) : Token :=
  { kind := .eof, text := "", loc := l.loc }

theorem scan_of_rest_eq_nil {l : Lexer} (h : l.rest = []) : l.scan = (l.stop, l) := by
  simp [scan, h, stop]

/-- At the end of a text every call gives `stop` and changes nothing. -/
theorem calls_of_rest_eq_nil {l : Lexer} (h : l.rest = []) (n : Nat) :
    l.calls .all n = (List.replicate n l.stop, l) := by
  induction n with
  | zero => rfl
  | succ n ih => rw [calls, next_all, scan_of_rest_eq_nil h, ih, List.replicate_succ]

/-! ## One token -/

/-- A token is read from a lexer by `scan`, and another one is left. -/
structure Step (l : Lexer) (t : Token) (l' : Lexer) : Prop where
  scan : l.scan = (t, l')
  found : classify l.dialect l.rest = (t.kind, t.text.length)
  kind : t.kind ≠ .eof
  text : t.text ≠ ""
  loc : t.loc = l.loc
  rest : l.rest = t.text.toList ++ l'.rest
  dialect : l'.dialect = l.dialect
  offset : l'.loc.offset = l.loc.offset + t.text.utf8ByteSize

/-- Before the end of a text a `Step` can be taken. -/
theorem scan_step {l : Lexer} (h : l.rest ≠ []) : l.Step l.scan.1 l.scan.2 := by
  have htext : l.scan.1.text.toList = l.rest.take (classify l.dialect l.rest).2 := by
    rw [text_scan h, String.toList_ofList]
  have hlength : l.scan.1.text.length = (classify l.dialect l.rest).2 := by
    rw [← String.length_toList, htext, List.length_take_of_le (found_classify l.dialect h).1]
  exact {
    scan := rfl
    found := by rw [hlength, kind_scan h]
    kind := by
      rw [kind_scan h]
      exact kind_classify_ne_eof l.dialect h
    text := by
      intro hempty
      have hpos := classify_pos l.dialect l.rest
      rw [← hlength, hempty] at hpos
      exact absurd hpos (by decide)
    loc := by simp [Lexer.scan, h]
    rest := by rw [htext, rest_scan h, List.take_append_drop]
    dialect := dialect_scan h
    offset := by simp [Lexer.scan, h, Loc.after] }

/-! ## Several tokens -/

/-- Tokens are read from a lexer one after the other, and another one is left. -/
inductive Run : Lexer → List Token → Lexer → Prop
  | nil (l : Lexer) : Run l [] l
  | cons {l l₁ l₂ : Lexer} {t : Token} {ts : List Token} (h : l.Step t l₁) (hts : Run l₁ ts l₂) :
      Run l (t :: ts) l₂

/-- Reading comes to the end of a text: each `Step` leaves less of it. -/
theorem exists_run (l : Lexer) : ∃ ts last, l.Run ts last ∧ last.rest = [] := by
  by_cases hrest : l.rest = []
  · exact ⟨[], l, .nil l, hrest⟩
  · have hlt := length_scan_lt hrest
    obtain ⟨ts, last, hrun, hlast⟩ := l.scan.2.exists_run
    exact ⟨_, last, .cons (scan_step hrest) hrun, hlast⟩
termination_by l.rest.length

namespace Run

variable {l l' : Lexer} {ts : List Token}

/-- A `Run` is what as many calls give. -/
theorem calls (h : l.Run ts l') : l.calls .all ts.length = (ts, l') := by
  induction h with
  | nil l => rfl
  | cons h _ ih => rw [List.length_cons, Lexer.calls, next_all, h.scan, ih]

/-- A `Run` to the end has all `tokens` but the mark of the end. -/
theorem tokens (h : l.Run ts l') (hend : l'.rest = []) : l.tokens = ts ++ [l'.stop] := by
  induction h with
  | nil l => exact tokens_of_rest_eq_nil hend
  | @cons l _ _ t _ h _ ih =>
    have hne : l.rest ≠ [] := by simp [h.rest, h.text]
    rw [tokens_of_rest_ne_nil hne, h.scan, ih hend, List.cons_append]

/-- What has been read and what is left are the text. -/
theorem rest (h : l.Run ts l') : l.rest = (String.join (ts.map (·.text))).toList ++ l'.rest := by
  induction h with
  | nil l => rfl
  | cons h _ ih => rw [h.rest, ih, List.map_cons, String.join_cons, String.toList_append,
      List.append_assoc]

theorem dialect (h : l.Run ts l') : l'.dialect = l.dialect := by
  induction h with
  | nil l => rfl
  | cons h _ ih => rw [ih, h.dialect]

/-- The offset moves on by the bytes of what has been read, as each `Step` has it. -/
theorem offset (h : l.Run ts l') :
    l'.loc.offset = l.loc.offset + (String.join (ts.map (·.text))).utf8ByteSize := by
  induction h with
  | nil l => rfl
  | cons h _ ih => rw [ih, h.offset, List.map_cons, String.join_cons, String.utf8ByteSize_append,
      Nat.add_assoc]

/-- A token among others is read in a `Step` where those before it end. -/
theorem exists_step {pre post : List Token} {t : Token} (h : l.Run (pre ++ t :: post) l') :
    ∃ l₁ l₂, l.Run pre l₁ ∧ l₁.Step t l₂ ∧ l₂.Run post l' := by
  induction pre generalizing l with
  | nil =>
    cases h with
    | cons h hts => exact ⟨l, _, .nil l, h, hts⟩
  | cons u pre ih =>
    cases h with
    | cons h hts =>
      obtain ⟨l₁, l₂, hpre, hstep, hpost⟩ := ih hts
      exact ⟨l₁, l₂, .cons h hpre, hstep, hpost⟩

end Run

/-- **Nothing is lost**: for every text there are tokens with texts that are not empty and that make
up the text when they are put together, and these are what the first calls give. Each is what the
rules find in the text from there on, and its offset is the number of bytes before it. All further
calls give one and the same mark of the end, at the offset where the text ends, and leave the lexer
as it is. -/
theorem lossless (d : Dialect) (file text : String) :
    ∃ (ts : List Token) (mark : Token) (last : Lexer),
      (∀ n, (ofText d file text).calls .all (ts.length + n)
        = (ts ++ List.replicate n mark, last)) ∧
      (ofText d file text).tokens = ts ++ [mark] ∧
      mark.kind = .eof ∧ mark.text = "" ∧ mark.loc.offset = text.utf8ByteSize ∧
      String.join (ts.map (·.text)) = text ∧
      ∀ pre t post, ts = pre ++ t :: post →
        t.kind ≠ .eof ∧ t.text ≠ "" ∧
        t.loc.offset = (String.join (pre.map (·.text))).utf8ByteSize ∧
        classify d (String.join ((t :: post).map (·.text))).toList = (t.kind, t.text.length) := by
  obtain ⟨ts, last, hrun, hend⟩ := (ofText d file text).exists_run
  have htext : text.toList = (String.join (ts.map (·.text))).toList := by
    simpa [ofText, hend] using hrun.rest
  have hjoin : String.join (ts.map (·.text)) = text := (String.toList_inj.1 htext).symm
  refine ⟨ts, last.stop, last, fun n => ?_, hrun.tokens hend, rfl, rfl, ?_, hjoin, ?_⟩
  · rw [calls_add, hrun.calls, calls_of_rest_eq_nil hend]
  · have hoffset := hrun.offset
    rw [hjoin] at hoffset
    simpa [ofText, Loc.startOf, stop] using hoffset
  · -- a token is what is found in the texts from there on, as these are what is left
    rintro pre t post rfl
    obtain ⟨l₁, l₂, hpre, hstep, hpost⟩ := hrun.exists_step
    refine ⟨hstep.kind, hstep.text, ?_, ?_⟩
    · rw [hstep.loc, hpre.offset]
      simp [ofText, Loc.startOf]
    · have hrest : l₁.rest = (String.join ((t :: post).map (·.text))).toList := by
        rw [hstep.rest, hpost.rest, hend, List.append_nil, List.map_cons, String.join_cons,
          String.toList_append]
      rw [← hrest, ← hstep.found, hpre.dialect]
      rfl

end Lexer

end Diglot

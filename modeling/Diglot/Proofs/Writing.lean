import Diglot.Compile

/-!
# What a document writes

The texts that a document can come to. Where it stands on the page decides only whether an import is
wrapped, so the texts of a document are given by its indentation and by whether anything has been
written before it; which of them it is does not matter for how they are read.

- `Doc.Writes`: the texts of a document.
- `Doc.Clear`: a text of a document in which no sign is taken for a regular expression.
- `Doc.faultless`: a document without faults.
- `Doc.exists_wrote`: what a document has written to its end is one of its texts.
- `Doc.run_of_faultless`: a document without faults is written to the end, as one of its texts.
- `Doc.Same`: documents that write the same.
-/

namespace Diglot

namespace Doc

/-- The texts of a document at an indentation; `written` tells whether anything has been written
before it. `Doc.within` has two, since the width that is left is not known here. -/
def Writes : Doc → (indent : List Char) → (written : Bool) → List Char → Prop
  | .empty, _, _, T => T = []
  | .text s, _, _, T => T = s.toList
  | .freshLine, indent, written, T => T = (if written then ['\n'] else []) ++ indent
  | .lineFeed, _, written, T => T = if written then ['\n'] else []
  | .within _ inline wrapped, indent, written, T =>
    T = inline.toList ∨ wrapped.Writes indent written T
  | .indented extra d, indent, written, T => d.Writes (indent ++ extra.toList) written T
  | .seq a b, indent, written, T =>
    ∃ T₁ T₂, a.Writes indent written T₁ ∧ b.Writes indent (written || !T₁.isEmpty) T₂ ∧
      T = T₁ ++ T₂
  | .fault _, _, _, _ => False

/-- How documents in a row are grouped does not matter to `Writes`. -/
theorem writes_append_assoc {a b c : Doc} {indent T : List Char} {written : Bool} :
    (a ++ b ++ c).Writes indent written T ↔ (a ++ (b ++ c)).Writes indent written T := by
  have hflag (T₁ T₂ : List Char) :
      (written || !(T₁ ++ T₂).isEmpty) = (written || !T₁.isEmpty || !T₂.isEmpty) := by
    cases T₁ <;> simp
  constructor
  · rintro ⟨_, T₃, ⟨T₁, T₂, h₁, h₂, rfl⟩, h₃, rfl⟩
    rw [hflag] at h₃
    exact ⟨T₁, T₂ ++ T₃, h₁, ⟨T₂, T₃, h₂, h₃, rfl⟩, List.append_assoc ..⟩
  · rintro ⟨T₁, _, h₁, ⟨T₂, T₃, h₂, h₃, rfl⟩, rfl⟩
    rw [← hflag] at h₃
    exact ⟨T₁ ++ T₂, T₃, ⟨T₁, T₂, h₁, h₂, rfl⟩, h₃, (List.append_assoc ..).symm⟩

/-- A text stands before another one. If it is the sign for dividing and assigning,
`Lexeme.regexp` finds nothing there, as it would if a later slash on the same line could end it. -/
def ClearText (s : String) (T rest : List Char) : Prop :=
  T = s.toList ∧ (s = "/=" → Lexeme.regexp (T ++ rest) = 0)

/-- A document writes a text before another one, and all its signs for dividing and assigning
stay signs there, by `ClearText`. -/
def Clear : Doc → (indent : List Char) → (written : Bool) → (T rest : List Char) → Prop
  | .text s, _, _, T, rest => ClearText s T rest
  | .within _ inline wrapped, indent, written, T, rest =>
    ClearText inline T rest ∨ wrapped.Clear indent written T rest
  | .indented extra d, indent, written, T, rest => d.Clear (indent ++ extra.toList) written T rest
  | .seq a b, indent, written, T, rest =>
    ∃ T₁ T₂, a.Clear indent written T₁ (T₂ ++ rest) ∧
      b.Clear indent (written || !T₁.isEmpty) T₂ rest ∧ T = T₁ ++ T₂
  | d, indent, written, T, _ => d.Writes indent written T

/-- `Clear` says more about a text than `Writes`. -/
theorem Clear.writes {d : Doc} {indent T rest : List Char} {written : Bool}
    (h : d.Clear indent written T rest) : d.Writes indent written T := by
  induction d generalizing indent T rest written with
  | text s => exact h.1
  | within width inline wrapped ih => exact h.imp And.left ih
  | indented extra d ih => exact ih h
  | seq a b iha ihb =>
    obtain ⟨T₁, T₂, ha, hb, rfl⟩ := h
    exact ⟨T₁, T₂, iha ha, ihb hb, rfl⟩
  | _ => exact h

/-- Whether a document holds no `Doc.fault`. -/
def faultless : Doc → Bool
  | .within _ _ wrapped => wrapped.faultless
  | .indented _ d => d.faultless
  | .seq a b => a.faultless && b.faultless
  | .fault _ => false
  | .empty | .text _ | .freshLine | .lineFeed => true

end Doc

/-! ## Writing without a limit -/

namespace Emitter

/-- A page on which a text has been written: the `sink` has it at its end and still has no
limit. -/
structure Wrote (e : Emitter) (T : List Char) (e' : Emitter) : Prop where
  sink : e'.sink = { text := e.sink.text ++ String.ofList T, limit := none }
  indent : e'.indent = e.indent
  written : e'.written = (e.written || !T.isEmpty)

/-- Without a limit `emit` writes the whole text. -/
theorem emit_wrote {e : Emitter} (he : e.sink.limit = none) (text : String) :
    (e.emit text).2 = none ∧ e.Wrote text.toList (e.emit text).1 := by
  rw [emit, Sink.write_of_limit_eq_none he]
  refine ⟨rfl, ?_, rfl, ?_⟩
  · simp [he]
  · cases h : text.isEmpty <;> simp_all

/-- One text after another. -/
theorem Wrote.trans {e e₁ e₂ : Emitter} {T₁ T₂ : List Char} (h₁ : e.Wrote T₁ e₁)
    (h₂ : e₁.Wrote T₂ e₂) : e.Wrote (T₁ ++ T₂) e₂ where
  sink := by
    rw [h₂.sink, h₁.sink, String.ofList_append, String.append_assoc]
  indent := h₂.indent.trans h₁.indent
  written := by
    rw [h₂.written, h₁.written]
    cases T₁ <;> simp

/-- Only one text has been written from one page to the other. -/
theorem Wrote.unique {e e' : Emitter} {T U : List Char} (hT : e.Wrote T e') (hU : e.Wrote U e') :
    T = U := by
  have htext := congrArg Sink.text (hT.sink.symm.trans hU.sink)
  exact String.ofList_injective ((String.append_right_inj _).1 htext)

theorem Wrote.limit {e e' : Emitter} {T : List Char} (h : e.Wrote T e') : e'.sink.limit = none := by
  rw [h.sink]

theorem wrote_nil {e : Emitter} (he : e.sink.limit = none) : e.Wrote [] e where
  sink := by
    cases e with
    | mk sink indent position written =>
      cases sink
      simp_all
  indent := rfl
  written := by simp

/-- `andThen` goes on where nothing has stopped it. -/
theorem andThen_of_none {r : Outcome} (h : r.2 = none) (k : Emitter → Outcome) :
    andThen r k = k r.1 := by
  obtain ⟨e, stopped⟩ := r
  obtain rfl : stopped = none := h
  rfl

/-- What has come to its end has come through its first part. -/
theorem finished_of_andThen {r : Outcome} {k : Emitter → Outcome} (h : (andThen r k).2 = none) :
    r.2 = none := by
  obtain ⟨e, stopped⟩ := r
  cases stopped with
  | none => rfl
  | some err => cases h

/-- `lineFeed` writes a line break unless the page is blank. -/
theorem lineFeed_wrote {e : Emitter} (he : e.sink.limit = none) :
    e.lineFeed.2 = none ∧ e.Wrote (if e.written then ['\n'] else []) e.lineFeed.1 := by
  unfold lineFeed
  cases hw : e.written with
  | true => exact emit_wrote he "\n"
  | false => exact ⟨rfl, wrote_nil he⟩

end Emitter

open Emitter in
/-- What a document has written to its end is one of its texts in `Doc.Writes`. -/
theorem Doc.exists_wrote {d : Doc} {e : Emitter} (he : e.sink.limit = none)
    (h : (d.run e).2 = none) :
    ∃ T, d.Writes e.indent.toList e.written T ∧ e.Wrote T (d.run e).1 := by
  induction d generalizing e with
  | empty => exact ⟨[], rfl, wrote_nil he⟩
  | text s => exact ⟨_, rfl, (emit_wrote he s).2⟩
  | freshLine =>
    obtain ⟨hnone, hwrote⟩ := lineFeed_wrote he
    obtain ⟨-, hwrote'⟩ := emit_wrote hwrote.limit e.lineFeed.1.indent
    have hrun : Doc.freshLine.run e = e.lineFeed.1.emit e.lineFeed.1.indent :=
      andThen_of_none hnone _
    rw [hrun]
    refine ⟨_, rfl, ?_⟩
    rw [← hwrote.indent]
    exact hwrote.trans hwrote'
  | lineFeed => exact ⟨_, rfl, (lineFeed_wrote he).2⟩
  | within width inline wrapped ih =>
    -- the width decides which of the two texts it is
    unfold Doc.run at h ⊢
    split
    next hpasses =>
      rw [if_pos hpasses] at h
      obtain ⟨T, hT, hwrote⟩ := ih he h
      exact ⟨T, .inr hT, hwrote⟩
    next => exact ⟨_, .inl rfl, (emit_wrote he inline).2⟩
  | indented extra d ih =>
    obtain ⟨T, hT, hwrote⟩ := ih (e := { e with indent := e.indent ++ extra }) he h
    refine ⟨T, ?_, hwrote.sink, rfl, hwrote.written⟩
    simpa [Doc.Writes] using hT
  | seq a b iha ihb =>
    have hfirst := finished_of_andThen h
    obtain ⟨T₁, hT₁, hwrote₁⟩ := iha he hfirst
    have hrun : (Doc.seq a b).run e = b.run (a.run e).1 := andThen_of_none hfirst _
    rw [hrun] at h ⊢
    obtain ⟨T₂, hT₂, hwrote₂⟩ := ihb hwrote₁.limit h
    rw [hwrote₁.indent, hwrote₁.written] at hT₂
    exact ⟨_, ⟨T₁, T₂, hT₁, hT₂, rfl⟩, hwrote₁.trans hwrote₂⟩
  | fault defect => cases h

open Emitter in
/-- A document that is `faultless` is written to the end, as one of its texts. -/
theorem Doc.run_of_faultless {d : Doc} (hd : d.faultless = true) {e : Emitter}
    (he : e.sink.limit = none) :
    (d.run e).2 = none ∧
      ∃ T, d.Writes e.indent.toList e.written T ∧ e.Wrote T (d.run e).1 := by
  suffices hnone : (d.run e).2 = none from ⟨hnone, exists_wrote he hnone⟩
  induction d generalizing e with
  | empty => rfl
  | text s => exact (emit_wrote he s).1
  | freshLine =>
    obtain ⟨hnone, hwrote⟩ := lineFeed_wrote he
    have hrun : Doc.freshLine.run e = e.lineFeed.1.emit e.lineFeed.1.indent :=
      andThen_of_none hnone _
    rw [hrun]
    exact (emit_wrote hwrote.limit _).1
  | lineFeed => exact (lineFeed_wrote he).1
  | within width inline wrapped ih =>
    unfold Doc.run
    split
    · exact ih hd he
    · exact (emit_wrote he inline).1
  | indented extra d ih => exact ih hd he
  | seq a b iha ihb =>
    simp only [Doc.faultless, Bool.and_eq_true] at hd
    have hfirst := iha hd.1 he
    obtain ⟨T₁, -, hwrote₁⟩ := exists_wrote he hfirst
    have hrun : (Doc.seq a b).run e = b.run (a.run e).1 := andThen_of_none hfirst _
    rw [hrun]
    exact ihb hd.2 hwrote₁.limit
  | fault defect => simp [Doc.faultless] at hd

/-! ## Documents that write the same -/

namespace Emitter

/-- `emit` does not change how much a sink takes. -/
theorem limit_emit (text : String) (e : Emitter) : (e.emit text).1.sink.limit = e.sink.limit := by
  unfold emit Sink.write
  split
  · rfl
  · next h =>
    split at h <;> cases h
    rfl

theorem limit_lineFeed (e : Emitter) : e.lineFeed.1.sink.limit = e.sink.limit := by
  unfold lineFeed
  split
  · exact limit_emit _ e
  · rfl

/-- Nor do two steps in a row. -/
theorem limit_andThen {r : Outcome} {k : Emitter → Outcome} {limit : Option Nat}
    (hr : r.1.sink.limit = limit) (hk : ∀ e, (k e).1.sink.limit = e.sink.limit) :
    (andThen r k).1.sink.limit = limit := by
  obtain ⟨e, _ | err⟩ := r
  · exact (hk e).trans hr
  · exact hr

end Emitter

open Emitter in
/-- Writing does not change how much a sink takes: the `limit` stays. -/
theorem Doc.limit_run (d : Doc) (e : Emitter) : (d.run e).1.sink.limit = e.sink.limit := by
  induction d generalizing e with
  | empty => rfl
  | text s => exact limit_emit s e
  | freshLine => exact limit_andThen (limit_lineFeed e) fun e => limit_emit _ e
  | lineFeed => exact limit_lineFeed e
  | within width inline wrapped ih =>
    unfold Doc.run
    split
    · exact ih e
    · exact limit_emit inline e
  | indented extra d ih => exact ih _
  | seq a b iha ihb => exact limit_andThen (iha e) ihb
  | fault defect => rfl

/-- Two documents write the same by `Doc.run`, wherever they stand on a page without a limit. -/
def Doc.Same (a b : Doc) : Prop :=
  ∀ e, e.sink.limit = none → a.run e = b.run e

namespace Doc.Same

variable {a a' b b' : Doc}

protected theorem refl (a : Doc) : a.Same a :=
  fun _ _ => rfl

protected theorem symm (h : a.Same b) : b.Same a :=
  fun e he => (h e he).symm

protected theorem trans {c : Doc} (hab : a.Same b) (hbc : b.Same c) : a.Same c :=
  fun e he => (hab e he).trans (hbc e he)

/-- `Same` goes through documents in a row. -/
theorem append (ha : a.Same a') (hb : b.Same b') : (a ++ b).Same (a' ++ b') := by
  intro e he
  show Emitter.andThen (a.run e) b.run = Emitter.andThen (a'.run e) b'.run
  have hlimit := (a.limit_run e).trans he
  rw [← ha e he]
  generalize a.run e = r at hlimit
  obtain ⟨e', _ | err⟩ := r
  · exact hb e' hlimit
  · rfl

theorem append_assoc (a b c : Doc) : (a ++ b ++ c).Same (a ++ (b ++ c)) :=
  fun e _ => Emitter.andThen_assoc (a.run e) b.run c.run

theorem append_empty (a : Doc) : (a ++ Doc.empty).Same a := by
  intro e _
  show Emitter.andThen (a.run e) Doc.empty.run = a.run e
  obtain ⟨e', _ | err⟩ := a.run e <;> rfl

theorem empty_append (a : Doc) : (Doc.empty ++ a).Same a :=
  fun _ _ => rfl

/-- A text may be written in two parts. -/
theorem text_append (s s' : String) : (Doc.text (s ++ s')).Same (Doc.text s ++ Doc.text s') := by
  intro e he
  show e.emit (s ++ s') = Emitter.andThen (e.emit s) fun e => e.emit s'
  have hnone := (Emitter.emit_wrote he s).1
  rw [Emitter.andThen_of_none hnone]
  unfold Emitter.emit
  simp only [Sink.write_of_limit_eq_none he, String.toList_append, Position.advance_append]
  rw [Sink.write_of_limit_eq_none (s := { e.sink with text := e.sink.text ++ s }) he]
  have hempty : (s ++ s').isEmpty = (s.isEmpty && s'.isEmpty) := by
    rw [Bool.eq_iff_iff]
    simp
  simp [hempty, String.append_assoc, Bool.or_assoc]

/-- `Same` goes through an indentation. -/
theorem indented (ha : a.Same a') (extra : String) :
    (Doc.indented extra a).Same (Doc.indented extra a') := by
  intro e he
  simp only [Doc.run]
  rw [ha { e with indent := e.indent ++ extra } he]

end Doc.Same

end Diglot

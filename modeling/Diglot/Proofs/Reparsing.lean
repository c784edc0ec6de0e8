import Diglot.Tree.Equality
import Diglot.Proofs.Awaited
import Diglot.Proofs.RoundTrip

/-!
# Printed programs, read again

What a printed program is read back as, where it need not be what was printed. A name may be a
reserved word of the dialect that is printed in, and is then read as that word: `end;` is refused
where `end` ends a block. The sign `/=` may begin a regular expression, if another slash follows on
its line, and a text in which one does is not read at all. And a comment that ends the file may be
read as its trailer.

- `Program.SpoiltIn`: a sign `/=` of a program has begun a regular expression in its text.
- `PrintedAs.parses_iff`: the text is read exactly if no sign is spoilt.
- `compile_parses_iff`: a compiled text, if its names are free in its dialect, is read there unless
  a sign is spoilt.
- `trailer_reparsed`: the trailer that is read from a printed program.
-/

namespace Diglot

open Awaited

/-! ## Texts that are read -/

/-- The coarse reading, `Awaited.run`, accepts every text that is read. -/
theorem accepts_of_parseText {d : Dialect} {file text : String} {p? : Option Program}
    (h : parseText d file text = .ok p?) : run d Awaited.file (cut d text.toList).tape = true := by
  have hcases := parseText_cases d file text
  rw [h] at hcases
  cases p? with
  | none =>
    have hend := (proper_cut d text.toList).eq_end hcases.1 hcases.2.1
    rw [hend]
    cases d <;> rfl
  | some p =>
    have hreads : ReadsProgram d _ _ p := hcases
    exact hreads.accepts

/-- In a text of a program, a sign that divides and assigns has begun a regular expression, as
`Cut.Spoilt` says. -/
def Program.SpoiltIn (t : Dialect) (p : Program) (text : String) : Prop :=
  (cut t text.toList).Spoilt (filePieces t (p.lower t).promote)

/-- Without a `divAssign` no sign can be spoilt. -/
theorem Program.not_spoiltIn {p : Program} (h : ¬Divides p.nodes) (t : Dialect) (text : String) :
    ¬p.SpoiltIn t text :=
  not_spoilt h _

/-- The text of a program is read exactly if the program is not `SpoiltIn` it. -/
theorem PrintedAs.parses_iff {t : Dialect} {p : Program} {text : String} (h : PrintedAs t p text)
    (file : String) : (∃ q?, Diglot.parseText t file text = .ok q?) ↔ ¬p.SpoiltIn t text := by
  constructor
  · rintro ⟨q?, hq⟩ ⟨P₁, P₂, cs, S, hP, hS⟩
    -- Up to the sign the two tapes are the same, and only one of them can be accepted.
    have hgood := h.reads.accepts
    have hbad := accepts_of_parseText hq
    rw [hP, List.append_assoc, List.cons_append] at hgood
    rw [hS, not_accepts_regexp hgood] at hbad
    cases hbad
  · intro hspoilt
    exact ⟨_, h.parseText hspoilt file⟩

/-! ## Compiled texts -/

/-- **A compiled text is read in the dialect that it is compiled into**, if no name that stands in
it is reserved there, exactly if none of its signs `/=` begins a regular expression there; so always
if it has none of these signs. -/
theorem compile_parses_iff {input output : Dialect} {file text out : String} {p? : Option Program}
    (h : parseText input file text = .ok p?) (hout : compile input output file text = .ok out)
    (hfree : ∀ p ∈ p?, ∀ n ∈ p.namesIn output, output.keyword? n = none) :
    ((∃ q?, parseText output file out = .ok q?) ↔ ∀ p ∈ p?, ¬p.SpoiltIn output out) ∧
      ((∀ p ∈ p?, ¬Divides p.nodes) → ∃ q?, parseText output file out = .ok q?) := by
  have hiff : (∃ q?, parseText output file out = .ok q?) ↔ ∀ p ∈ p?, ¬p.SpoiltIn output out := by
    rw [compile, h] at hout
    cases p? with
    | none =>
      obtain rfl : "" = out := Except.ok.inj hout
      -- a text without a program is compiled to nothing, which is read
      exact ⟨fun _ p hp => absurd hp (Option.not_mem_none p),
        fun _ => ⟨none, parseText_empty output file⟩⟩
    | some p =>
      obtain ⟨printed, hprinted⟩ := exists_printedAs h (hfree p rfl)
      obtain rfl : printed = out := Except.ok.inj (hprinted.printed.symm.trans hout)
      rw [hprinted.parses_iff file]
      exact ⟨fun hspoilt q hq => Option.some.inj hq ▸ hspoilt, fun hall => hall p rfl⟩
  exact ⟨hiff, fun hdivides => hiff.2 fun p hp => p.not_spoiltIn (hdivides p hp) output out⟩

theorem compile_parses_iff_branches :
    compile .brace .block "a" "if (x) { y = 1; } else { f(y); }" =
        .ok "if x then\n  y = 1;\nelse\n  f(y);\nend\n" ∧
      ∃ q?, parseText .block "a" "if x then\n  y = 1;\nelse\n  f(y);\nend\n" = .ok q? := by
  have hparse : parseText .brace "a" "if (x) { y = 1; } else { f(y); }" = .ok (some
      { leading := [], moduleName := none, imports := [],
        body := [.statement (.ifThen (.symbol "x")
          [.statement (.expr (.binary .assign (.symbol "y") (.literal (.fixnum 1 "1"))))]
          (some (.block
            [.statement (.expr (.call (.symbol "f") (.list [.symbol "y"] false)))])))],
        trailer := "" }) := by
    refine eq_ok_of_toOption ?_
    rw [parseText, parse, Lexer.run, Lexer.tokens_ofText]
    decide +kernel
  have hout : compile .brace .block "a" "if (x) { y = 1; } else { f(y); }" =
      .ok "if x then\n  y = 1;\nelse\n  f(y);\nend\n" := by
    rw [compile, hparse]
    rfl
  refine ⟨hout, (compile_parses_iff hparse hout ?_).2 ?_⟩
  · rintro p ⟨⟩ n hn
    revert n
    decide
  · rintro p ⟨⟩ ⟨l, r, hmem⟩
    revert hmem
    simp [Program.nodes, Declaration.nodesOf, Declaration.nodes, Statement.nodes, Expr.nodes,
      Expr.nodesOf]

theorem ne_ok_of_isOk {ε α : Type} {x : Except ε α} (h : x.isOk = false) (a : α) : x ≠ .ok a := by
  rintro rfl
  cases h

/-- Three programs of the brace dialect that are not read any more once they are printed in the
block dialect: where `end` is a name, where it is the name of the module, and where a sign `/=` has
come to stand before a slash on its line. -/
theorem compile_refused :
    (compile .brace .block "a" "end;" = .ok "end;\n" ∧
      ∀ q?, parseText .block "a" "end;\n" ≠ .ok q?) ∧
    (compile .brace .block "a" "module end; x;" = .ok "module end;\nx;\n" ∧
      ∀ q?, parseText .block "a" "module end;\nx;\n" ≠ .ok q?) ∧
    compile .brace .block "a" "a /=\nb / c;" = .ok "a /= b / c;\n" ∧
      ∀ q?, parseText .block "a" "a /= b / c;\n" ≠ .ok q? := by
  refine ⟨⟨eq_ok_of_toOption ?_, ne_ok_of_isOk ?_⟩, ⟨eq_ok_of_toOption ?_, ne_ok_of_isOk ?_⟩,
    eq_ok_of_toOption ?_, ne_ok_of_isOk ?_⟩
  all_goals
    simp only [compile, parseText, parse, Lexer.run, Lexer.tokens_ofText]
    decide +kernel

/-! ## Trailers -/

/-- Genuine comments are not empty, so they make an empty trailer only if there are none. -/
theorem joined_eq_empty_iff {t : Dialect} {cs : List Comment} (h : ∀ c ∈ cs, c.Genuine t) :
    Comment.joined cs = "" ↔ cs = [] := by
  constructor
  · intro hempty
    cases cs with
    | nil => rfl
    | cons c cs => exact absurd hempty (Comment.joined_ne_empty (h c List.mem_cons_self) cs)
  · rintro rfl
    rfl

/-- **What becomes of the trailer of a program that is printed and read again.** If it has one, it
keeps it. If it has none, it gets the comments that its text ends with, from the first marker on
that only line comments follow; so it stays without one exactly if there are no such comments. -/
theorem trailer_reparsed {d : Dialect} {file text : String} {p q : Program} {out : Sink}
    (h : parseText d file text = .ok (some p)) (hout : (generate d p).run .unlimited = .ok () out)
    (hq : parseText d file out.text = .ok (some q)) :
    q.trailer = (if p.trailer = "" then Comment.joined (Comment.trailing (p.lower d).finals)
        else p.trailer) ∧
      (q.trailer = p.trailer ↔ (p.trailer = "" → Comment.trailing (p.lower d).finals = [])) := by
  obtain ⟨printed, hprinted⟩ := exists_printedAs h (parsed_of_parseText h).1.free_in
  obtain rfl : printed = out.text :=
    congrArg Sink.text (EStateM.Result.ok.inj (hprinted.generate.symm.trans hout)).2
  -- the text is read, so no sign in it is spoilt and it is read back as it should be
  have hread := hprinted.parseText ((hprinted.parses_iff file).1 ⟨_, hq⟩) file
  obtain rfl : p.readBack d = q := Option.some.inj (Except.ok.inj (hread.symm.trans hq))
  have htrailer : (p.readBack d).trailer = (if p.trailer = "" then
      Comment.joined (Comment.trailing (p.lower d).finals) else p.trailer) := by
    show (Comment.promote (p.lower d).finals (p.lower d).trailer).2 = _
    rw [p.trailer_lower, Comment.promote]
    split <;> rfl
  refine ⟨htrailer, ?_⟩
  have hgenuine : ∀ c ∈ Comment.trailing (p.lower d).finals, c.Genuine d :=
    fun c hc => hprinted.finals c (Comment.trailing_subset hc)
  rw [htrailer]
  split
  · next hempty =>
    rw [hempty, joined_eq_empty_iff hgenuine]
    exact ⟨fun hnil _ => hnil, fun hnil => hnil rfl⟩
  · next hne => exact ⟨fun _ hempty => absurd hempty hne, fun _ => rfl⟩

/-- A marker between the arguments of a call ends the file, and is read as its trailer. -/
theorem trailer_reparsed_marker :
    ∃ p q out, parseText .brace "a" "f( // OUTPUT: x\n1);" = .ok (some p) ∧
      (generate .brace p).run .unlimited = .ok () out ∧
      parseText .brace "a" out.text = .ok (some q) ∧
      p.trailer = "" ∧ q.trailer = "// OUTPUT: x" := by
  obtain ⟨p, hparse, htrailer, hdivides, hfinals⟩ :
      ∃ p, parseText .brace "a" "f( // OUTPUT: x\n1);" = .ok (some p) ∧ p.trailer = "" ∧
        ¬Divides p.nodes ∧
        Comment.trailing (p.lower .brace).finals = [⟨.line, "// OUTPUT: x"⟩] := by
    refine ⟨{ leading := [], moduleName := none, imports := [],
              body := [.statement (.expr (.call (.symbol "f")
                (.list [.literal (.fixnum 1 "1")] false))), .comments [⟨.line, "// OUTPUT: x"⟩]],
              trailer := "" }, eq_ok_of_toOption ?_, rfl, ?_, ?_⟩
    · rw [parseText, parse, Lexer.run, Lexer.tokens_ofText]
      decide +kernel
    · rintro ⟨l, r, hmem⟩
      simp [Program.nodes, Declaration.nodesOf, Declaration.nodes, Statement.nodes, Expr.nodes,
        Expr.nodesOf] at hmem
    · decide
  obtain ⟨printed, hprinted⟩ := exists_printedAs hparse (parsed_of_parseText hparse).1.free_in
  have hread := hprinted.parseText (not_spoilt hdivides _) "a"
  have hreparsed := (trailer_reparsed hparse hprinted.generate hread).1
  rw [if_pos htrailer, hfinals] at hreparsed
  exact ⟨p, _, _, hparse, hprinted.generate, hread, htrailer, hreparsed⟩

end Diglot

import Diglot.Proofs.Cutting
import Diglot.Proofs.Faultless

/-!
# What compiling can come to

Compiling fails only where reading does, and with the same complaint about the source: what has been
read is printed without fault, on a page that takes everything. The text is empty only for a text of
blanks, since whatever else a program holds leaves something on the page.

- `Doc.loud`: a document that writes something, wherever it stands.
- `Lexer.blank_iff`: the tape of a text is blank when all its tokens are blanks.
- `compile_outcome`: the outcomes of compiling.
-/

namespace Diglot

/-! ## Documents that write something -/

namespace Doc

/-- Whether some text of a document is there in any case. `Doc.marks` is the same but for
faults, which leave no text. -/
def loud : Doc → Bool
  | .text s => !s.isEmpty
  | .within _ inline wrapped => !inline.isEmpty && wrapped.loud
  | .indented _ d => d.loud
  | .seq a b => a.loud || b.loud
  | .empty | .freshLine | .lineFeed | .fault _ => false

/-- A document that is `loud` writes something. -/
theorem ne_nil_of_loud {d : Doc} (h : d.loud = true) {indent T : List Char} {written : Bool}
    (hT : d.Writes indent written T) : T ≠ [] := by
  induction d generalizing indent written T with
  | text s =>
    cases hT
    simpa [loud] using h
  | within width inline wrapped ih =>
    simp only [loud, Bool.and_eq_true] at h
    rcases hT with rfl | hT
    · simpa using h.1
    · exact ih h.2 hT
  | indented extra d ih => exact ih h hT
  | seq a b iha ihb =>
    obtain ⟨T₁, T₂, hT₁, hT₂, rfl⟩ := hT
    rcases Bool.or_eq_true_iff.1 h with h | h
    · simp [iha h hT₁]
    · simp [ihb h hT₂]
  | _ => cases h

@[simp] theorem loud_append (a b : Doc) : (a ++ b).loud = (a.loud || b.loud) :=
  rfl

@[simp] theorem loud_text (s : String) : (text s).loud = !s.isEmpty :=
  rfl

end Doc

theorem Print.loud_block (t : Dialect) (body : Doc) : (block t.surface body).loud = true := by
  cases t <;> rfl

theorem Print.loud_branch (t : Dialect) (further : Bool) (test body : Doc) :
    (branch t.surface further test body).loud = true := by
  cases t with
  | brace => rfl
  | block => cases further <;> rfl

/-- Every statement is `loud`, whatever its parts are. -/
theorem Statement.loud_doc (t : Dialect) (st : Statement) :
    (st.doc t.surface false).loud = true := by
  cases st with
  | ifThen test body other =>
    match other with
    | none | some (.block _) | some (.ifThen ..) | some (.whileLoop ..) | some (.forLoop ..)
    | some (.throw _) | some (.ret _) | some (.expr _) =>
      simp [Statement.doc, Print.loud_branch]
  | forLoop keyword names collection body bracketed => cases keyword <;> simp [Statement.doc]
  | ret value => cases value <;> simp [Statement.doc]
  | block body => exact Print.loud_block t _
  | _ => simp [Statement.doc]

/-- Comments that are genuine are not empty, so they are `loud`. -/
theorem Print.loud_comments {d : Dialect} {cs : List Comment} (hne : cs ≠ [])
    (h : ∀ c ∈ cs, c.Genuine d) : (Print.comments cs).loud = true := by
  obtain ⟨c, cs, rfl⟩ := List.exists_cons_of_ne_nil hne
  simp [Print.comments, (h c (by simp)).text_ne_empty]

/-- A declaration of a parsed tree is `loud`: a group of comments is not empty there. -/
theorem Declaration.loud_doc {d : Dialect} (t : Dialect) {x : Declaration}
    (h : AllNodes (Node.Parsed d) x.nodes) : (x.doc t.surface).loud = true := by
  cases x with
  | var keyword name value exported => cases value <;> simp [Declaration.doc]
  | statement st => simp [Declaration.doc, st.loud_doc]
  | comments cs =>
    obtain ⟨hne, hgenuine⟩ := (allNodes_cons.1 h).1.formed
    rw [Declaration.doc]
    exact Print.loud_comments hne hgenuine
  | _ => simp [Declaration.doc]

theorem Print.loud_importLine (i : Import) : (importLine i).loud = true := by
  cases i <;> simp [importLine, Doc.loud]

/-! ## Programs -/

/-- A tape that is not `Blank` holds something. -/
theorem ReadsProgram.not_empty {d : Dialect} {S : Tape} {trailer : Option String} {p : Program}
    (h : ReadsProgram d S trailer p) (htrailer : ∀ text ∈ trailer, text ≠ "") : p ≠ .empty := by
  obtain @⟨S₁, S₂, S₃, S₄, m, cs, is, body, hne, hm, hcs, his, hb, he⟩ := h
  intro hempty
  obtain ⟨hleading, rfl, rfl, rfl, hnone⟩ := Program.mk.inj hempty
  have hwaiting := (List.append_eq_nil_iff.1 hleading).1
  have htrailer : trailer = none := by
    cases trailer with
    | none => rfl
    | some text => exact absurd hnone (htrailer text rfl)
  refine hne ⟨?_, hwaiting, htrailer⟩
  -- nothing is read, so the end comes first
  cases hm
  cases his with
  | importsNone himport =>
    cases hcs with
    | taken h => exact absurd ((Tape.kind_flush _).trans h) himport
    | kept _ =>
      generalize hnil : ([] : Block) = body at hb
      cases hb with
      | declarationsEnd _ =>
        have hkind := congrArg Tape.kind he
        rwa [Tape.kind_flush, Tape.kind_flush] at hkind
      | declarationsMore _ _ => simp at hnil

/-- A parsed program that is not empty is `loud`. -/
theorem Program.loud_doc {d : Dialect} (t : Dialect) {p : Program} (h : p.Parsed d)
    (hne : p ≠ .empty) : (p.doc t.surface).loud = true := by
  obtain ⟨leading, moduleName, imports, body, trailer⟩ := p
  -- part by part, from the top: the first one that is there is loud
  by_cases hleading : leading = []
  · cases moduleName with
    | some m => simp [Program.doc]
    | none =>
      cases imports with
      | cons i is => simp [Program.doc, Doc.concat, Print.loud_importLine]
      | nil =>
        cases body with
        | cons x xs =>
          have hx := Declaration.loud_doc t (allNodes_append.1 h.nodes).1
          simp [Program.doc, Declaration.docs, hx]
        | nil =>
          have htrailer : trailer ≠ "" := fun h => hne (by rw [hleading, h]; rfl)
          simp [Program.doc, htrailer]
  · simp [Program.doc, Print.loud_comments hleading h.leading]

/-! ## Blank texts -/

/-- A text has a `Blank` tape and no trailer when all its tokens are blanks. -/
theorem Lexer.blank_iff (l : Lexer) :
    Blank (cut l.dialect l.rest).tape (cut l.dialect l.rest).trailer ↔
      ∀ t ∈ l.tokens, t.kind = .whitespace ∨ t.kind = .newline ∨ t.kind = .eof := by
  fun_induction Lexer.tokens l with
  | case1 l hnil =>
    have hrest : l.rest = [] := by simpa using hnil
    simp [scan, hrest, Blank, Tape.kind, Tape.waiting]
  | case2 l hne ih =>
    have hrest : l.rest ≠ [] := by simpa using hne
    have heof : l.scan.1.kind ≠ .eof := by
      rw [Lexer.kind_scan hrest]
      exact kind_classify_ne_eof _ hrest
    rw [Lexer.cut_scan hrest, List.forall_mem_cons, ← ih]
    cases hk : l.scan.1.kind <;>
      simp_all [Cut.add, Blank, Tape.kind, Tape.waiting]

/-! ## Compiling -/

/-- What has been read by `parseText` is `Parsed`, and not empty. -/
theorem parsed_of_parseText {d : Dialect} {file text : String} {p : Program}
    (h : parseText d file text = .ok (some p)) : p.Parsed d ∧ p ≠ .empty := by
  have hreads := reads_of_parseText h
  refine ⟨hreads.parsed (proper_cut d text.toList).allGenuine, hreads.not_empty ?_⟩
  exact fun trailer ht => (genuine_trailer ht).1

/-- What is `Parsed` is printed, and not as an empty text. -/
theorem printProgram_of_parsed {d : Dialect} (t : Dialect) {p : Program} (h : p.Parsed d)
    (hne : p ≠ .empty) : ∃ text : String, printProgram t p = .ok text ∧
      (p.doc t.surface).Writes [] false text.toList ∧ text ≠ "" := by
  obtain ⟨text, hprint, hwrites⟩ :=
    printProgram_of_faultless (Program.faultless_doc t.surface h.nodes)
  refine ⟨text, hprint, hwrites, fun hempty => ?_⟩
  exact Doc.ne_nil_of_loud (Program.loud_doc t h hne) hwrites (by simp [hempty])

/-- The outcomes of compiling. It fails exactly where reading the text does, with the same
complaint about the source, and gives an empty text exactly for a text of blanks. -/
theorem compile_outcome (input output : Dialect) (file text : String) :
    (∀ e, compile input output file text = .error e ↔ parseText input file text = .error e) ∧
      (∀ e, compile input output file text = .error e → ∃ s, e = .source s) ∧
      (compile input output file text = .ok "" ↔
        ∀ t ∈ (Lexer.ofText input file text).tokens,
          t.kind = .whitespace ∨ t.kind = .newline ∨ t.kind = .eof) := by
  have hblank : Blank (cut input text.toList).tape (cut input text.toList).trailer ↔ _ :=
    (Lexer.ofText input file text).blank_iff
  have hcases := parseText_cases input file text
  rw [← hblank]
  cases hparse : parseText input file text with
  | error e =>
    have hcompile : compile input output file text = .error e := by
      rw [compile, hparse]
      rfl
    rw [hparse] at hcases
    obtain ⟨s, rfl⟩ := hcases
    -- blanks are read without complaint
    have hnot : ¬Blank (cut input text.toList).tape (cut input text.toList).trailer := by
      intro hb
      rw [parseText_of_blank file hb] at hparse
      cases hparse
    rw [hcompile]
    refine ⟨fun e => by simp, fun e he => ⟨s, (Except.error.inj he).symm⟩, nofun, ?_⟩
    exact fun hb => absurd hb hnot
  | ok p? =>
    cases p? with
    | none =>
      have hcompile : compile input output file text = .ok "" := by
        rw [compile, hparse]
        rfl
      rw [hparse] at hcases
      rw [hcompile]
      exact ⟨fun e => by simp, fun _ he => (nomatch he), fun _ => hcases, fun _ => rfl⟩
    | some p =>
      have ⟨hparsed, hsome⟩ := parsed_of_parseText hparse
      -- whatever has been read is printed, and as something
      obtain ⟨printed, hprint, -, hne⟩ := printProgram_of_parsed output hparsed hsome
      have hcompile : compile input output file text = .ok printed := by
        rw [compile, hparse]
        exact hprint
      rw [hparse] at hcases
      rw [hcompile]
      have hnot : ¬Blank (cut input text.toList).tape (cut input text.toList).trailer := by
        cases hcases with
        | mk hne _ _ _ _ _ => exact hne
      exact ⟨fun e => by simp, fun _ he => (nomatch he),
        fun h => absurd (Except.ok.inj h) hne, fun hb => absurd hb hnot⟩

end Diglot

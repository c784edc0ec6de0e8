import Diglot.Proofs.Division
import Diglot.Proofs.Promotion

/-!
# Round trips

Printing a parsed program and reading the text gives the program back, and printing what has been
read gives the same text again. The first holds where the dialect has a place for everything in the
program; the second always, since what is lost on the first way is lost for good: a module line that
was printed as a comment stays a comment, and parentheses that were printed stay.

- `Program.lower`: a program with its module line as the comment that is printed for it.
- `Program.settle`: what the text of a program is read back as.
- `Program.Portable`: a program with nothing that a dialect would read as something else.
- `Program.readBack`, `PrintedAs`: what the text of any program is read back as, unless a sign for
  dividing and assigning begins a regular expression in it.
- `parseText_printProgram`: what is printed is read back, settled.
- `print_parse`, `compile_fixed`: the two round trips.
-/

namespace Diglot

open Rules Lexeme

/-! ## Module lines as comments -/

/-- The comment that is printed for a module line where there are none. -/
def moduleComment (name : String) : Comment :=
  { kind := .line, text := "// module " ++ name ++ ";" }

/-- A block without the comments that it begins with, `Declaration.opening`. -/
def Declaration.afterOpening : Block → Block
  | .comments _ :: xs => xs
  | xs => xs

/-- A program with its module line as a comment if that is how it is printed, the
`moduleComment`. Comments after it are then comments at the top of the file as well, unless
imports come first. -/
def Program.lower (t : Dialect) (p : Program) : Program :=
  match t, p.moduleName with
  | .brace, some name =>
    if p.imports.isEmpty then
      { p with
        leading := p.leading ++ moduleComment name :: Declaration.opening p.body
        moduleName := none
        body := Declaration.afterOpening p.body }
    else
      { p with leading := p.leading ++ [moduleComment name], moduleName := none }
  | _, _ => p

/-- What the text of a program is read back as: it is taken to be `lower`, and its expressions
have the parentheses that they are printed with. -/
def Program.settle (t : Dialect) (p : Program) : Program :=
  { p.lower t with body := Declaration.settles t.surface (p.lower t).body }

theorem same_comments_append (cs cs' : List Comment) :
    (Print.comments (cs ++ cs')).Same (Print.comments cs ++ Print.comments cs') := by
  induction cs with
  | nil => exact (Doc.Same.empty_append _).symm
  | cons c cs ih => exact ((Doc.Same.refl _).append ih).trans (Doc.Same.append_assoc _ _ _).symm

/-- The module line of the brace dialect is written as the `moduleComment`. -/
theorem same_moduleComment (name : String) :
    (Print.moduleLine Dialect.brace.surface (some name)).Same
      (Print.comments [moduleComment name]) := by
  have htext : (Doc.text ("// module " ++ name ++ ";")).Same
      (Doc.text "// module " ++ Doc.text name ++ Doc.text ";") :=
    (Doc.Same.text_append _ _).trans ((Doc.Same.text_append _ _).append (.refl _))
  have hline : (Doc.freshLine ++ Doc.text "// module " ++ Doc.text name ++ Doc.text ";").Same
      (Doc.freshLine ++ (Doc.text "// module " ++ Doc.text name ++ Doc.text ";")) :=
    ((Doc.Same.append_assoc _ _ _).append (.refl _)).trans (Doc.Same.append_assoc _ _ _)
  exact (hline.trans ((Doc.Same.refl _).append htext.symm)).trans (Doc.Same.append_empty _).symm

/-- A block is written as its opening comments and then what is after them. -/
theorem same_docs_opening (s : Surface) (body : Block) :
    (Declaration.docs s body).Same (Print.comments (Declaration.opening body)
      ++ Declaration.docs s (Declaration.afterOpening body)) := by
  cases body with
  | nil => exact (Doc.Same.empty_append _).symm
  | cons x xs =>
    cases x with
    | comments cs => exact .refl _
    | _ => exact (Doc.Same.empty_append _).symm

theorem Doc.Same.append_empties {a b : Doc} : (a ++ Doc.empty ++ Doc.empty ++ b).Same (a ++ b) :=
  ((Doc.Same.append_empty _).trans (Doc.Same.append_empty _)).append (.refl _)

/-- A program that is taken to be `lower` is printed as the program that it comes from. -/
theorem Program.same_mainDoc_lower (t : Dialect) (p : Program) :
    ((p.lower t).mainDoc t.surface).Same (p.mainDoc t.surface) := by
  obtain ⟨leading, moduleName, imports, body, trailer⟩ := p
  match t, moduleName, imports with
  | .block, _, _ | .brace, none, _ => exact .refl _
  | .brace, some name, i :: is =>
    have hleading : (Print.comments (leading ++ [moduleComment name]) ++ Doc.empty).Same
        (Print.comments leading ++ Print.moduleLine Dialect.brace.surface (some name)) :=
      (Doc.Same.append_empty _).trans ((same_comments_append _ _).trans
        ((Doc.Same.refl _).append (same_moduleComment name).symm))
    exact (hleading.append (.refl _)).append (.refl _)
  | .brace, some name, [] =>
    -- without imports the comments that the body begins with move to the top as well
    have hbody := (same_docs_opening Dialect.brace.surface body).symm
    have hleading :
        (Print.comments (leading ++ moduleComment name :: Declaration.opening body)).Same
        (Print.comments leading ++ Print.moduleLine Dialect.brace.surface (some name)
          ++ Print.comments (Declaration.opening body)) := by
      have hsplit := same_comments_append leading (moduleComment name :: Declaration.opening body)
      have hcomments := same_comments_append [moduleComment name] (Declaration.opening body)
      have hmodule := hcomments.trans ((same_moduleComment name).symm.append (.refl _))
      exact hsplit.trans (((Doc.Same.refl _).append hmodule).trans
        (Doc.Same.append_assoc _ _ _).symm)
    have hmain : (Print.comments leading ++ Print.moduleLine Dialect.brace.surface (some name)
        ++ Doc.empty ++ Declaration.docs Dialect.brace.surface body).Same
        (Print.comments leading ++ Print.moduleLine Dialect.brace.surface (some name)
          ++ (Print.comments (Declaration.opening body)
            ++ Declaration.docs Dialect.brace.surface (Declaration.afterOpening body))) :=
      (Doc.Same.append_empty _).append hbody.symm
    exact Doc.Same.append_empties.trans ((hleading.append (.refl _)).trans
      ((Doc.Same.append_assoc _ _ _).trans hmain.symm))

theorem Program.trailer_lower (t : Dialect) (p : Program) : (p.lower t).trailer = p.trailer := by
  unfold Program.lower
  split
  · split <;> rfl
  · rfl

theorem Program.same_doc_lower (t : Dialect) (p : Program) :
    ((p.lower t).doc t.surface).Same (p.doc t.surface) := by
  rw [Program.doc_eq, Program.doc_eq, p.trailer_lower]
  exact ((p.same_mainDoc_lower t).append (.refl _)).append (.refl _)

/-- A program that has been read back is printed as before: `settle` does not change the
document. -/
theorem Program.same_doc_settle (t : Dialect) (p : Program) :
    ((p.settle t).doc t.surface).Same (p.doc t.surface) := by
  refine Doc.Same.trans ?_ (p.same_doc_lower t)
  rw [Program.doc_eq, Program.doc_eq]
  have hbody := Declaration.same_docs_settles t.surface (p.lower t).body
  exact (((Doc.Same.refl _).append hbody).append (.refl _)).append (.refl _)

/-- Documents that are written in the same way print the same text. -/
theorem printProgram_congr {t : Dialect} {p q : Program}
    (h : (p.doc t.surface).Same (q.doc t.surface)) : printProgram t p = printProgram t q := by
  unfold printProgram Emitter.writeProgram
  rw [h _ rfl]

/-! ## Portable programs -/

/-- A program with nothing in it that a dialect would read as something else: no `divAssign`,
whose sign can begin a regular expression; no comment that would begin the trailer; no name that
is reserved. -/
structure Program.Portable (t : Dialect) (p : Program) : Prop where
  noDivAssign : ∀ l r, Node.expr (.binary .divAssign l r) ∉ p.nodes
  noMarker : ∀ c ∈ p.comments, c.kind = .line → startsTrailer c.text.toList = false
  free : ∀ n ∈ p.names, t.keyword? n = none

/-- A program whose text in a dialect is legible. Where the module line is a comment, any
`IsWord` will do for the name of the module. -/
structure Program.Legible (t : Dialect) (p : Program) : Prop where
  leading : ∀ c ∈ p.leading, c.Genuine t
  moduleWord : ∀ m ∈ p.moduleName, IsWord m
  moduleName : t = .block → ∀ m ∈ p.moduleName, IsName t m
  imports : ∀ i ∈ p.imports, i.Genuine t
  nodes : AllNodes (Node.Legible t) p.nodes

section Legible

variable {d t : Dialect}

/-- A name of one dialect that is free in another is a name there: words are the same in both. -/
theorem IsName.of_free {n : String} (h : IsName d n) (hfree : t.keyword? n = none) : IsName t n :=
  ⟨h.word, h.notTrue, h.notFalse, hfree⟩

/-- Comments are the same in both dialects. -/
theorem Comment.Genuine.legible {c : Comment} (h : c.Genuine d) : c.Genuine t := by
  obtain ⟨_ | _, text⟩ := c <;> exact h

/-- A node that is `Parsed` is `Legible` in every dialect that leaves its names free. -/
theorem Node.Parsed.legible {n : Node} (h : n.Parsed d)
    (hfree : ∀ name ∈ n.names, t.keyword? name = none) : n.Legible t := by
  refine ⟨fun name hname => (h.names name hname).of_free (hfree name hname), ?_⟩
  have hformed := h.formed
  cases n with
  | expr e =>
    cases e with
    | literal value => cases value <;> exact hformed
    | binary op l r => exact hformed.2
    | _ => trivial
  | entry e =>
    cases e with
    | shorthand key | pair key _ => cases key <;> exact hformed
  | statement st => trivial
  | declaration x =>
    cases x with
    | comments cs => exact fun c hc => (hformed.2 c hc).legible
    | _ => trivial

/-- A program that is `Parsed` is `Legible` in every dialect that leaves free the names that
stand in its text, `Program.namesIn`. -/
theorem Program.Parsed.legible {p : Program} (hp : p.Parsed d)
    (hfree : ∀ n ∈ p.namesIn t, t.keyword? n = none) : p.Legible t where
  leading c hc := (hp.leading c hc).legible
  moduleWord m hm := (hp.moduleName m hm).word
  moduleName ht m hm := by
    subst ht
    exact (hp.moduleName m hm).of_free (hfree m (by simp_all [Program.namesIn]))
  imports i hi := by
    -- what an import declares stands in the text, whatever becomes of the module line
    have hfree : ∀ n ∈ i.declared, t.keyword? n = none := fun n hn =>
      hfree n (by simpa [Program.namesIn] using .inr (.inl ⟨i, hi, hn⟩))
    have hgenuine := hp.imports i hi
    cases i with
    | names ns path =>
      exact ⟨fun n hn => (hgenuine.1 n hn).of_free (hfree n hn), hgenuine.2⟩
    | whole name path =>
      exact ⟨hgenuine.1.of_free (hfree name (by simp [Import.declared])), hgenuine.2⟩
  nodes n hn := (hp.nodes n hn).legible fun name hname =>
    hfree name (by simpa [Program.namesIn] using .inr (.inr ⟨n, hn, hname⟩))

/-- The names of a program that is `Parsed` are not reserved in its own dialect. -/
theorem Program.Parsed.free {d : Dialect} {p : Program} (hp : p.Parsed d) :
    ∀ n ∈ p.names, d.keyword? n = none := by
  intro n hn
  simp only [Program.names, List.mem_append, List.mem_flatMap, Option.mem_toList] at hn
  rcases hn with (hn | ⟨i, hi, hn⟩) | ⟨m, hm, hn⟩
  · exact (hp.moduleName n hn).free
  · have himport := hp.imports i hi
    cases i with
    | names ns path => exact (himport.1 n hn).free
    | whole name path =>
      obtain rfl := List.mem_singleton.1 hn
      exact himport.1.free
  · exact ((hp.nodes m hm).names n hn).free

theorem Program.Parsed.free_in {d : Dialect} {p : Program} (hp : p.Parsed d) :
    ∀ n ∈ p.namesIn d, d.keyword? n = none :=
  fun n hn => hp.free n (p.namesIn_subset d hn)

end Legible

/-! ## Lowered programs are read back -/

section Lower

variable {d t : Dialect} {S : Tape} {trailer : Option String} {p : Program}

theorem toList_moduleComment (name : String) :
    (moduleComment name).text.toList = "// module ".toList ++ (name.toList ++ [';']) := by
  simp [moduleComment, String.toList_append]

/-- The `moduleComment` of a word is a comment up to the end of its line. -/
theorem moduleComment_genuine {name : String} (h : IsWord name) :
    (moduleComment name).Genuine t := by
  refine ⟨?_, fun c hc => ?_⟩
  · rw [toList_moduleComment]
    rfl
  · have hword (c : Char) (hc : isWordChar c = true) : isBreak c = false := by
      rw [isBreak, Bool.or_eq_false_iff, beq_eq_false_iff_ne, beq_eq_false_iff_ne]
      constructor <;> rintro rfl <;> exact absurd hc (by decide)
    rw [toList_moduleComment, List.mem_append, List.mem_append, List.mem_singleton] at hc
    rcases hc with hc | hc | rfl
    · revert c hc
      exact forall_mem_of_all (by decide)
    · exact hword c (h.2 c hc)
    · decide

/-- A `moduleComment` does not begin the trailer. -/
theorem moduleComment_unmarked (name : String) : (moduleComment name).isMarked = false := by
  rw [Comment.isMarked, toList_moduleComment]
  rfl

/-- Declarations after the comments that they begin with: these wait on the tape, and
`afterOpening` is read without them. -/
theorem Reads.afterOpening {S' : Tape} {body : Block} (h : Reads d .declarations S body S') :
    body = Comment.declare S.waiting ++ Declaration.afterOpening body ∧
      Reads d .declarations S.flush (Declaration.afterOpening body) S' := by
  cases h with
  | declarationsEnd h =>
    have hend := Reads.declarationsEnd (d := d) (S := S.flush) (by rwa [Tape.kind_flush])
    rw [Tape.waiting_flush, Tape.flush_of_waiting (Tape.waiting_flush S)] at hend
    cases S.waiting <;> exact ⟨rfl, hend⟩
  | @declarationsMore S₁ _ _ x xs hx hxs =>
    have hafter : Declaration.afterOpening (x :: xs) = x :: xs := by
      cases hx <;> rfl
    have hmore : Reads d .declarations S.flush (x :: xs) S' := by
      -- the rule flushes the tape before the declaration, and flushing twice is flushing once
      rw [← Tape.flush_of_waiting (Tape.waiting_flush S)] at hx
      have hmore := Reads.declarationsMore hx hxs
      rwa [Tape.waiting_flush] at hmore
    cases S.waiting with
    | nil =>
      rw [show Comment.declare [] ++ x :: xs = x :: xs from rfl, hafter]
      exact ⟨rfl, hmore⟩
    | cons c cs => exact ⟨rfl, hmore⟩

/-- A file without a module line and imports does not begin with comments of its declarations:
they are `Program.leading`. -/
theorem ReadsProgram.opening_eq_nil (h : ReadsProgram d S trailer p) (hm : p.moduleName = none)
    (hi : p.imports = []) : Declaration.opening p.body = [] := by
  obtain @⟨S₁, S₂, S₃, S₄, m, cs, is, body, -, hline, hcs, his, hb, -⟩ := h
  obtain rfl : m = none := hm
  obtain rfl : is = [] := hi
  cases hline
  cases his with
  | importsNone himport =>
    cases hcs with
    | taken h => exact absurd ((Tape.kind_flush _).trans h) himport
    | kept _ => rw [hb.opening_eq, Tape.waiting_flush]

/-- A parsed program, taken to be `lower`, is printed as its pieces and read back. -/
theorem ReadsProgram.fileAs (h : ReadsProgram d S trailer p) (hl : p.Legible t) :
    FileAs t (p.lower t) ∧ BodyAs t (p.lower t).body := by
  have htop := h.opening_eq_nil
  obtain @⟨S₁, S₂, S₃, S₄, m, cs, is, body, -, -, -, -, hb, -⟩ := h
  have hbody : BodyAs t body := hb.reprints hl.nodes
  match t, m, is with
  | .block, m, is =>
    exact ⟨⟨hl.leading, fun m hm => ⟨rfl, hl.moduleName rfl m hm⟩, hl.imports, hbody.whole, htop⟩,
      hbody⟩
  | .brace, none, is => exact ⟨⟨hl.leading, nofun, hl.imports, hbody.whole, htop⟩, hbody⟩
  | .brace, some m, i :: is =>
    have hm : (moduleComment m).Genuine .brace := moduleComment_genuine (hl.moduleWord m rfl)
    refine ⟨⟨?_, nofun, hl.imports, hbody.whole, nofun⟩, hbody⟩
    exact List.forall_mem_append.2 ⟨hl.leading, by simpa using hm⟩
  | .brace, some m, [] =>
    have hm : (moduleComment m).Genuine .brace := moduleComment_genuine (hl.moduleWord m rfl)
    -- the comments that the body begins with come after the module line, which is a comment
    -- now, so they belong to the top of the file and only the rest is printed as the body
    obtain ⟨hparts, hafter⟩ := hb.afterOpening
    have hnodes : AllNodes (Node.Legible .brace) (Declaration.nodesOf body) := hl.nodes
    rw [hparts, Declaration.nodesOf_append, allNodes_append, ← hb.opening_eq] at hnodes
    have hrest : BodyAs .brace _ := hafter.reprints hnodes.2
    refine ⟨⟨?_, nofun, nofun, hrest.whole, fun _ _ => ?_⟩, hrest⟩
    · exact List.forall_mem_append.2 ⟨hl.leading,
        List.forall_mem_cons.2 ⟨hm, hnodes.1.genuine_of_declare⟩⟩
    · exact hafter.opening_eq.trans (Tape.waiting_flush _)

theorem Program.lower_ne_empty (h : p ≠ .empty) : p.lower t ≠ .empty := by
  unfold Program.lower
  split
  · split
    · exact fun hempty => absurd (Program.mk.inj hempty).1 (by simp)
    · exact fun hempty => absurd (Program.mk.inj hempty).1 (by simp)
  · exact h

/-- `Program.lower` adds no nodes to a program. -/
theorem Program.nodes_lower_subset (t : Dialect) (p : Program) : (p.lower t).nodes ⊆ p.nodes := by
  unfold Program.lower
  split
  · split
    · have hafter (body : Block) : Declaration.nodesOf (Declaration.afterOpening body)
          ⊆ Declaration.nodesOf body := by
        unfold Declaration.afterOpening
        split
        · exact List.subset_append_right _ _
        · exact fun _ hn => hn
      exact hafter p.body
    · exact fun _ hn => hn
  · exact fun _ hn => hn

end Lower

/-! ## Round trips -/

/-- What the text of a program is read back as, with the comments at its end that are read as
its trailer. For a parsed program without such comments this is `Program.settle`. -/
def Program.readBack (t : Dialect) (p : Program) : Program :=
  { (p.lower t).promote with
    body := Declaration.settles t.surface (p.lower t).promote.body }

/-- A text that a program is printed as in a dialect. It is cut into the pieces of the program,
which are read back, unless a sign among them is `Spoilt`. -/
structure PrintedAs (t : Dialect) (p : Program) (text : String) : Prop where
  printed : printProgram t p = .ok text
  ends : (p.lower t).replaceFinals (p.lower t).finals = p.lower t
  finals : ∀ c ∈ (p.lower t).finals, c.Genuine t
  reads : ReadsProgram t (filePieces t (p.lower t).promote ++ [.token .eof ""])
    (nonempty? (p.lower t).promote.trailer) (p.readBack t)
  cut : cut t text.toList =
      { tape := filePieces t (p.lower t).promote ++ [.token .eof ""],
        trailer := nonempty? (p.lower t).promote.trailer } ∨
    (cut t text.toList).Spoilt (filePieces t (p.lower t).promote)

/-- A parsed program is printed in every dialect that leaves free the names that stand in its
text: there is a text that it is `PrintedAs`. -/
theorem exists_printedAs {d t : Dialect} {file text : String} {p : Program}
    (h : parseText d file text = .ok (some p)) (hfree : ∀ n ∈ p.namesIn t, t.keyword? n = none) :
    ∃ printed, PrintedAs t p printed := by
  have hreads := reads_of_parseText h
  have ⟨hparsed, hne⟩ := parsed_of_parseText h
  -- what makes a trailer genuine does not depend on the dialect
  have htrailer : (p.lower t).trailer ≠ "" → Genuine t (p.lower t).trailer .outputComment := by
    intro hne
    rw [p.trailer_lower] at hne ⊢
    obtain @⟨S₁, S₂, S₃, S₄, m, cs, is, body, -, -, -, -, -, -⟩ := hreads
    cases htrailer : (Diglot.cut d text.toList).trailer with
    | none => exact absurd (by rw [htrailer]; rfl) hne
    | some trailer =>
      have hgenuine : Genuine d trailer .outputComment := genuine_trailer htrailer
      exact hgenuine
  obtain ⟨hfile, hbody⟩ := hreads.fileAs (hparsed.legible hfree)
  obtain ⟨printed, hprint, hwrites⟩ :=
    printProgram_of_faultless (Program.faultless_doc (p := p.lower t) t.surface fun n hn =>
      hparsed.nodes n (p.nodes_lower_subset t hn))
  refine ⟨printed, ?_, hbody.replaceFinals_finals, hbody.finals hfile, ?_,
    hfile.cut_text hbody htrailer hwrites⟩
  · rwa [← printProgram_congr (p.same_doc_lower t)]
  · exact (hfile.promote hbody).reads (hbody.promote_ne_empty hfile (Program.lower_ne_empty hne))

/-- A sink without a limit takes the whole text that `printProgram` gives. -/
theorem generate_of_printProgram {t : Dialect} {p : Program} {text : String}
    (h : printProgram t p = .ok text) :
    (generate t p).run .unlimited = .ok () { text, limit := none } := by
  rw [run_generate, h]
  simp [Sink.accepts, Sink.unlimited]

theorem PrintedAs.generate {t : Dialect} {p : Program} {text : String} (h : PrintedAs t p text) :
    (generate t p).run .unlimited = .ok () { text, limit := none } :=
  generate_of_printProgram h.printed

/-- Where no sign is `Spoilt`, the text is read back. -/
theorem PrintedAs.parseText {t : Dialect} {p : Program} {text : String} (h : PrintedAs t p text)
    (hspoilt : ¬(Diglot.cut t text.toList).Spoilt (filePieces t (p.lower t).promote))
    (file : String) : parseText t file text = .ok (some (p.readBack t)) := by
  refine parseText_of_reads file ?_
  rw [h.cut.resolve_right hspoilt]
  exact h.reads

theorem Declaration.nodesOf_beforeEnding_subset (body : Block) :
    nodesOf (beforeEnding body) ⊆ nodesOf body := by
  fun_induction beforeEnding body with
  | case1 | case2 => exact List.nil_subset _
  | case3 x xs _ ih =>
    exact List.append_subset.2
      ⟨List.subset_append_left _ _, fun n hn => List.mem_append_right _ (ih hn)⟩

/-- Without divisions that assign, no sign is `Spoilt`. -/
theorem not_spoilt {t : Dialect} {p : Program} (h : ¬Divides p.nodes) (c : Cut) :
    ¬c.Spoilt (filePieces t (p.lower t).promote) := by
  intro hspoilt
  have hpromoted : Divides (Program.nodes (p.lower t).promote) := Program.divides hspoilt.mem
  obtain ⟨l, r, hmem⟩ : Divides (p.lower t).nodes := by
    unfold Program.promote Program.replaceFinals Program.nodes at hpromoted
    split at hpromoted
    · exact hpromoted
    · rw [Declaration.nodesOf_append, divides_append] at hpromoted
      rcases hpromoted with ⟨l, r, hmem⟩ | ⟨l, r, hmem⟩
      · exact ⟨l, r, Declaration.nodesOf_beforeEnding_subset _ hmem⟩
      · generalize (Comment.promote _ _).1 = cs at hmem
        cases cs <;> simp [Comment.declare, Declaration.nodesOf, Declaration.nodes] at hmem
  exact h ⟨l, r, p.nodes_lower_subset t hmem⟩

theorem Declaration.mem_comments_of_ending {body : Block} {c : Comment}
    (h : c ∈ Declaration.ending body) : c ∈ (nodesOf body).flatMap Node.comments := by
  fun_induction ending body with
  | case1 => simp at h
  | case2 cs => simpa [nodesOf, nodes, Node.comments] using h
  | case3 x xs _ ih => simpa [nodesOf] using .inr (by simpa using ih h)

theorem Declaration.mem_comments_of_opening {body : Block} {c : Comment}
    (h : c ∈ Declaration.opening body) : c ∈ (nodesOf body).flatMap Node.comments := by
  unfold opening at h
  split at h
  · simp [nodesOf, nodes, Node.comments, h]
  · simp at h

/-- The comments at the end of a program that is taken to be `lower` are those of the program,
or a `moduleComment`. -/
theorem Program.finals_lower {t : Dialect} {p : Program} {c : Comment}
    (h : c ∈ (p.lower t).finals) : c ∈ p.comments ∨ ∃ name, c = moduleComment name := by
  have hnodes {n : Node} (hn : n ∈ p.nodes) (hc : c ∈ n.comments) : c ∈ p.comments :=
    List.mem_append_right _ (List.mem_flatMap.2 ⟨n, hn, hc⟩)
  -- a file that is bare ends with the comments at its top, where the module line may be one
  have hleading : c ∈ (p.lower t).leading → c ∈ p.comments ∨ ∃ name, c = moduleComment name := by
    intro hc
    unfold Program.lower at hc
    split at hc
    · next name _ =>
      split at hc
      · rcases List.mem_append.1 hc with hc | hc
        · exact .inl (List.mem_append_left _ hc)
        · rcases List.mem_cons.1 hc with rfl | hc
          · exact .inr ⟨name, rfl⟩
          · exact .inl (List.mem_append_right _ (Declaration.mem_comments_of_opening hc))
      · rcases List.mem_append.1 hc with hc | hc
        · exact .inl (List.mem_append_left _ hc)
        · exact .inr ⟨name, by simpa using hc⟩
    · exact .inl (List.mem_append_left _ hc)
  unfold Program.finals at h
  split at h
  · exact hleading h
  · obtain ⟨n, hn, hc⟩ := List.mem_flatMap.1 (Declaration.mem_comments_of_ending h)
    exact .inl (hnodes (p.nodes_lower_subset t hn) hc)

/-- What is printed of a program that is `Portable` is read back as its `settle`. -/
theorem parseText_printProgram {d t : Dialect} {file text : String} {p : Program}
    (h : parseText d file text = .ok (some p)) (hport : p.Portable t) :
    ∃ printed, printProgram t p = .ok printed ∧
      ∀ file, parseText t file printed = .ok (some (p.settle t)) := by
  obtain ⟨printed, hprinted⟩ :=
    exists_printedAs h fun n hn => hport.free n (p.namesIn_subset t hn)
  refine ⟨printed, hprinted.printed, fun file => ?_⟩
  have hspoilt : ¬Divides p.nodes := fun ⟨l, r, hmem⟩ => hport.noDivAssign l r hmem
  -- no marker stands at the end, so nothing is promoted to a trailer
  have hunmarked : ∀ c ∈ (p.lower t).finals, c.isMarked = false := by
    intro c hc
    rcases Program.finals_lower hc with hc | ⟨name, rfl⟩
    · have hmarker := hport.noMarker c hc
      cases hline : c.isLine with
      | false => simp [Comment.isMarked, hline]
      | true => simp [Comment.isMarked, hmarker (by simpa [Comment.isLine] using hline)]
    · exact moduleComment_unmarked name
  have hpromote : (p.lower t).promote = p.lower t :=
    Program.promote_eq_self hprinted.ends fun _ => Comment.trailing_eq_nil hunmarked
  rw [hprinted.parseText (not_spoilt hspoilt _) file, Program.readBack, hpromote]
  rfl

section Settled

variable {d t : Dialect}

/-- Where a dialect reads the beginning of an expression as a block, `Expr.readsAsBlock`, so
does the other, unless the expression begins with a brace. -/
theorem Expr.readsAsBlock_eq_false {e : Expr} (h : e.readsAsBlock d.surface = false)
    (hobject : d = .block → t = .brace → e.leftmost.isObject = false) :
    e.readsAsBlock t.surface = false := by
  rw [Expr.readsAsBlock_eq] at h ⊢
  cases d <;> cases t
  · exact h
  · simp [Dialect.surface]
  · simp [hobject rfl rfl]
  · exact h

theorem Expr.isAmbiguous_eq_false {e : Expr} (h : e.isAmbiguous d.surface = false)
    (hobject : d = .block → t = .brace → e.leftmost.isObject = false) :
    e.isAmbiguous t.surface = false := by
  rw [Expr.isAmbiguous_eq, ← Expr.readsAsBlock_eq, Bool.or_eq_false_iff] at h ⊢
  exact ⟨Expr.readsAsBlock_eq_false h.1 hobject, h.2⟩

/-- A node that is `Parsed` is `Settled` in either dialect, objects at the beginning of a
statement or of the body of an arrow function apart. -/
theorem Node.Parsed.settled {n : Node} (h : n.Parsed d)
    (hstatement : d = .block → t = .brace → ∀ v, n = .statement (.expr v) →
      v.leftmost.isObject = false)
    (harrow : d = .block → t = .brace → ∀ ps b, n = .expr (.arrow ps b) →
      b.leftmost.isObject = false) : n.Settled t.surface := by
  have hformed := h.formed
  cases n with
  | expr e =>
    cases e with
    | binary op l r =>
      intro hdot
      obtain ⟨name, hname, -⟩ := hformed.2 hdot
      exact ⟨name, hname⟩
    | arrow ps b => exact Expr.readsAsBlock_eq_false hformed fun hd ht => harrow hd ht ps b rfl
    | _ => trivial
  | statement st =>
    cases st with
    | expr v => exact Expr.isAmbiguous_eq_false hformed fun hd ht => hstatement hd ht v rfl
    | _ => trivial
  | _ => trivial

/-- Without a module line, or where there are module lines, `Program.lower` changes nothing. -/
theorem Program.lower_eq_self {p : Program} (h : t = .brace → p.moduleName = none) :
    p.lower t = p := by
  unfold Program.lower
  split
  · next hm => simp [h rfl] at hm
  · rfl

end Settled

/-- What is printed of a program is read back as the program, if it is portable and the dialect
has a place for everything in it: for a module line, and for an object at the beginning of a
statement or of the body of an arrow function. -/
theorem print_parse {d t : Dialect} {file text : String} {p : Program}
    (h : parseText d file text = .ok (some p)) (hport : p.Portable t)
    (hmodule : t = .brace → p.moduleName = none)
    (hobject : d = .block → t = .brace →
      (∀ v, Node.statement (.expr v) ∈ p.nodes → v.leftmost.isObject = false) ∧
      ∀ ps b, Node.expr (.arrow ps b) ∈ p.nodes → b.leftmost.isObject = false) :
    ∃ printed, (generate t p).run .unlimited = .ok () { text := printed, limit := none } ∧
      parseText t file printed = .ok (some p) := by
  have hparsed := (parsed_of_parseText h).1
  have hsettled : AllNodes (Node.Settled t.surface) (Declaration.nodesOf p.body) := by
    intro n hn
    refine (hparsed.nodes n hn).settled ?_ ?_
    · rintro hd ht v rfl
      exact (hobject hd ht).1 v hn
    · rintro hd ht ps b rfl
      exact (hobject hd ht).2 ps b hn
  -- the dialect has a place for everything, so settling leaves the program as it is
  have hsettle : p.settle t = p := by
    rw [Program.settle, Program.lower_eq_self hmodule,
      Declaration.settles_of_allSettled _ _ hsettled]
  obtain ⟨printed, hprint, hparse⟩ := parseText_printProgram h hport
  exact ⟨printed, generate_of_printProgram hprint, hsettle ▸ hparse file⟩

theorem portable_notes {p : Program}
    (h : parseText .block "a" "// c\nif x then y = 1 + /* d */ 2; end" = .ok (some p)) :
    p.Portable .brace := by
  obtain rfl := Option.some.inj (Except.ok.inj (parseText_notes.symm.trans h))
  refine ⟨fun l r => ?_, ?_, ?_⟩
  · simp [Program.nodes, Declaration.nodesOf, Declaration.nodes, Statement.nodes, Expr.nodes]
  · decide
  · decide

/-- Two comments, a block and operators, from the block dialect to the brace dialect. -/
theorem print_parse_note :
    ∃ p, parseText .block "a" "// c\nif x then y = 1 + /* d */ 2; end" = .ok (some p) ∧
      (generate .brace p).run .unlimited =
        .ok () { text := "// c\nif (x) \x7b\n  y = 1 + 2;\n  /* d */\n\x7d\n", limit := none } ∧
      parseText .brace "a" "// c\nif (x) \x7b\n  y = 1 + 2;\n  /* d */\n\x7d\n" = .ok (some p) := by
  obtain ⟨printed, hprint, hparse⟩ :=
    print_parse parseText_notes (portable_notes parseText_notes) (fun _ => rfl) fun _ _ => by
      simp [Program.nodes, Declaration.nodesOf, Declaration.nodes, Statement.nodes, Expr.nodes,
        Expr.leftmost, Expr.isObject]
  obtain rfl : "// c\nif (x) \x7b\n  y = 1 + 2;\n  /* d */\n\x7d\n" = printed :=
    congrArg Sink.text (EStateM.Result.ok.inj hprint).2
  exact ⟨_, parseText_notes, hprint, hparse⟩

/-- Compiling into a dialect what has been compiled into it changes nothing. -/
theorem compile_fixed {input output : Dialect} {file text out : String}
    (h : compile input output file text = .ok out)
    (hport : ∀ p, parseText input file text = .ok (some p) → p.Portable output) :
    compile output output file out = .ok out := by
  cases hparse : parseText input file text with
  | error e =>
    rw [compile, hparse] at h
    cases h
  | ok p? =>
    cases p? with
    | none =>
      -- a text of blanks is compiled to the empty text, which holds no program either
      obtain rfl : "" = out := by
        rw [compile, hparse] at h
        exact Except.ok.inj h
      rw [compile, parseText_empty]
      rfl
    | some p =>
      have hprint : printProgram output p = .ok out := by
        rw [compile, hparse] at h
        exact h
      -- what is read back is settled, and a settled program is printed as before
      obtain ⟨printed, hprinted, hread⟩ := parseText_printProgram hparse (hport p hparse)
      obtain rfl : printed = out := Except.ok.inj (hprinted.symm.trans hprint)
      rw [compile, hread]
      exact (printProgram_congr (p.same_doc_settle output)).trans hprint

theorem compile_fixed_note :
    compile .brace .brace "a" "// c\nif (x) \x7b\n  y = 1 + 2;\n  /* d */\n\x7d\n" =
      .ok "// c\nif (x) \x7b\n  y = 1 + 2;\n  /* d */\n\x7d\n" := by
  refine @compile_fixed .block .brace "a" "// c\nif x then y = 1 + /* d */ 2; end" _ ?_
    fun p => portable_notes
  rw [compile, parseText_notes]
  rfl

end Diglot

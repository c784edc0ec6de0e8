import Diglot.Proofs.Compiling
import Diglot.Proofs.Reprint

/-!
# Whole files read back

A file is printed as its leading comments, its module line, its imports and its declarations, and
read back in the same order. Comments at the top of a file belong to the file, so where
neither a module line nor an import comes after them, the declarations must not begin with comments
of their own.

- `cuts_importLine`, `reads_imports`: imports, on one line or wrapped.
- `filePieces`: the pieces of a file.
- `FileAs`: a program that is printed as its pieces and read back.
- `FileAs.cuts`: the pieces of the text; `FileAs.reads`: what is read from them.
-/

namespace Diglot

open Rules Lexeme

variable {t : Dialect}

/-! ## Imports -/

/-- The pieces of an `Import`. -/
def importPieces : Import → Tape
  | .names ns path =>
    .word .importKw :: .sign .lbrace :: (namePieces ns ++
      [.sign .rbrace, .word .fromKw, .token .string path, .sign .semicolon])
  | .whole name path =>
    [.word .importKw, .sign .star, .word .asKw, .name name, .word .fromKw, .token .string path,
      .sign .semicolon]

/-- The text of an import that is made up of two is cut like the two in a row. `Doc.Cuts` speaks
of documents, and an import on one line is a single text. -/
theorem cuts_concat {s s' : String} {P Q : Tape} {mid ok : List Char → Prop}
    (h : (Doc.text s).Cuts t mid P) (h' : (Doc.text s').Cuts t ok Q)
    (hlead : (Doc.text s').Leads ok mid) (hs : startsWith "import" s.toList = true)
    (hdivide : .divide ∉ P ++ Q) : (Doc.text (s ++ s')).Cuts t ok (P ++ Q) := by
  rintro indent written _ rest hindent rfl hrest htrails
  have hboth := h.append h' hlead indent written _ rest hindent
    ⟨s.toList, s'.toList, rfl, rfl, String.toList_append⟩ hrest htrails
  refine Cut.fares_of_eq ⟨rfl, fun heq => ?_⟩ (hboth.eq_of_not_mem hdivide)
  obtain ⟨tail, htail⟩ := startsWith_iff.1 hs
  have hfirst := congrArg (fun s => s.toList.head?) heq
  simp [String.toList_append, htail] at hfirst

theorem startsWith_concat {s s' : String} {lead : String} (h : startsWith lead s.toList = true) :
    startsWith lead (s ++ s').toList = true := by
  obtain ⟨tail, htail⟩ := startsWith_iff.1 h
  exact startsWith_iff.2 ⟨tail ++ s'.toList, by rw [String.toList_append, htail, List.append_assoc]⟩

theorem divide_not_mem_namePieces (ns : List String) : .divide ∉ namePieces ns := by
  cases ns <;> simp [namePieces, Tape.commas]

theorem cuts_path {path : String} (h : Genuine t path .string) :
    (Doc.text path).Cuts t Boundary [.token .string path] :=
  cuts_token h.1 rfl (ne_divide_of_string (t := t) h) fun _ _ => classify_string_append t h

/-- The beginning of an import of names, up to the first of them. -/
theorem cut_importOpen (t : Dialect) (rest : List Char) :
    cut t ("import \x7b ".toList ++ rest)
      = (cut t rest).prepend [.word .importKw, .sign .lbrace] := by
  have hboundary : Boundary (' ' :: (Punct.lbrace.spelling.toList ++ ' ' :: rest)) :=
    boundary_cons (by decide) (by decide)
  show cut t (Keyword.importKw.spelling.toList ++
    ' ' :: (Punct.lbrace.spelling.toList ++ ' ' :: rest)) = _
  rw [cut_token (by decide) rfl (classify_keyword (by cases t <;> decide) hboundary), cut_space,
    cut_sign rfl, cut_space, Cut.prepend_prepend]
  rfl

theorem importOpen_cuts :
    (Doc.text "import \x7b ").Cuts t Anything [.word .importKw, .sign .lbrace] :=
  Doc.cuts_text (fun rest _ => cut_importOpen t rest) (by simp) (by decide)

/-- The end of an import of names, after a blank or at the start of a line. -/
theorem cut_importClose (t : Dialect) (rest : List Char) :
    cut t ("\x7d from ".toList ++ rest)
      = (cut t rest).prepend [.sign .rbrace, .word .fromKw] := by
  have hboundary : Boundary (' ' :: rest) := boundary_cons (by decide) (by decide)
  show cut t (Punct.rbrace.spelling.toList ++
    ' ' :: (Keyword.fromKw.spelling.toList ++ ' ' :: rest)) = _
  rw [cut_sign rfl, cut_space,
    cut_token (by decide) rfl (classify_keyword (by cases t <;> decide) hboundary), cut_space,
    Cut.prepend_prepend]
  rfl

/-- An import of names on one line is cut into its `importPieces`. -/
theorem cuts_inlineNames {ns : List String} (hns : ∀ n ∈ ns, IsName t n) {path : String}
    (hpath : Genuine t path .string) :
    (Doc.text ("import \x7b " ++ ", ".intercalate ns ++ " \x7d from " ++ path ++ ";")).Cuts t
      Anything (importPieces (.names ns path)) := by
  have hclose : (Doc.text " \x7d from ").Cuts t Anything [.sign .rbrace, .word .fromKw] := by
    refine Doc.cuts_text (fun rest _ => ?_) (by simp) (by decide)
    show cut t (' ' :: ("\x7d from ".toList ++ rest)) = _
    rw [cut_space, cut_importClose]
  have hdivide : .divide ∉ Tape.commas (ns.map fun n => [.name n]) :=
    divide_not_mem_namePieces ns
  have hstart : startsWith "import" "import \x7b ".toList = true := by decide
  -- the parts of the text are put together from the left, as it is written
  have hnames := cuts_concat importOpen_cuts (cuts_names hns) Doc.leads_anything hstart
    (by simpa using hdivide)
  have hfrom := cuts_concat hnames hclose (leads_space rfl) (startsWith_concat hstart)
    (by simpa using hdivide)
  have hend := cuts_concat hfrom (cuts_path hpath) Doc.leads_anything
    (startsWith_concat (startsWith_concat hstart)) (by simpa using hdivide)
  exact (cuts_concat hend semicolon_cuts semicolon_leads
    (startsWith_concat (startsWith_concat (startsWith_concat hstart)))
    (by simpa using hdivide)).pieces (by simp [importPieces, namePieces])

/-- The names of a wrapped import after the first, one `importLines` each. -/
theorem cuts_importLines {ns : List String} (hns : ∀ n ∈ ns, IsName t n) :
    (Print.importLines ns).Cuts t Boundary (ns.flatMap fun n => [.sign .comma, .name n]) ∧
      (Print.importLines ns).Leads Boundary Boundary := by
  induction ns with
  | nil => exact ⟨Doc.cuts_empty, Doc.leads_empty⟩
  | cons n ns ih =>
    rw [List.forall_mem_cons] at hns
    have ⟨hrest, hlead⟩ := ih hns.2
    have hcomma : (Doc.text ", ").Cuts t Anything [.sign .comma] := cuts_comma
    refine ⟨?_, ?_⟩
    · exact (((Doc.cuts_freshLine.then hcomma).then (cuts_name hns.1)).append hrest hlead).pieces
        (by simp)
    · exact ((Doc.freshLine_leads_boundary.append Doc.leads_anything).append
        Doc.leads_anything).append Doc.leads_anything

/-- Names between commas as the first and the others, in the way that a wrapped import has them. -/
theorem namePieces_eq (n : String) (ns : List String) :
    namePieces (n :: ns) = .name n :: ns.flatMap fun n => [.sign .comma, .name n] := by
  induction ns generalizing n with
  | nil => rfl
  | cons m ns ih =>
    have htail := ih m
    rw [namePieces, List.map_cons, List.map_cons, Tape.commas_cons_cons]
    rw [namePieces, List.map_cons] at htail
    rw [htail]
    rfl

/-- An import of names over several lines is cut into the same `importPieces`. -/
theorem cuts_wrappedNames {ns : List String} (hns : ∀ n ∈ ns, IsName t n) {path : String}
    (hpath : Genuine t path .string) :
    ("import \x7b " ++ Print.firstName ns ++ Doc.indented "       "
      (Print.importLines ns.tail ++ Doc.freshLine ++ "\x7d from " ++ path ++ ";")).Cuts t
      Anything (importPieces (.names ns path)) := by
  have htail : ∀ n ∈ ns.tail, IsName t n := fun n hn => hns n (List.mem_of_mem_tail hn)
  have ⟨hlines, hlead⟩ := cuts_importLines htail
  have hclose : (Doc.text "\x7d from ").Cuts t Anything [.sign .rbrace, .word .fromKw] :=
    Doc.cuts_text (fun rest _ => cut_importClose t rest) (by simp) (by decide)
  have hbreak : Doc.freshLine.Leads Anything Boundary := Doc.freshLine_leads_boundary
  have hseven : ∀ c ∈ "       ".toList, c = ' ' := forall_mem_of_all (by decide)
  have hsemicolon : (Doc.text ";").Cuts t Anything [.sign .semicolon] := semicolon_cuts
  have hbody := (((hlines.append (Q := []) Doc.cuts_freshLine hbreak).then hclose).then
    (cuts_path hpath)).append hsemicolon semicolon_leads
  -- whatever comes after the first name, it begins a new line
  have hbodyLead : (Print.importLines ns.tail ++ Doc.freshLine ++ "\x7d from " ++ path
      ++ ";").Leads Anything Boundary :=
    (((hlead.append hbreak).append Doc.leads_anything).append Doc.leads_anything).append
      Doc.leads_anything
  have hfirst : (Print.firstName ns).Cuts t Boundary (ns.head?.toList.map .name) := by
    cases ns with
    | nil => exact Doc.cuts_empty
    | cons n ns => exact cuts_name (hns n (by simp))
  refine ((importOpen_cuts.then hfirst).append (hbody.indented hseven)
    (hbodyLead.indented hseven)).pieces ?_
  cases ns with
  | nil => rfl
  | cons n ns => simp [importPieces, namePieces_eq]

/-- An import, on one line or wrapped, is cut into its `importPieces`. -/
theorem cuts_importLine {i : Import} (h : i.Genuine t) :
    (Print.importLine i).Cuts t Anything (importPieces i) := by
  cases i with
  | names ns path =>
    exact Doc.cuts_freshLine.then ((cuts_inlineNames h.1 h.2).within (cuts_wrappedNames h.1 h.2) _)
  | whole name path =>
    -- the opening is three tokens in one text, so it is cut by hand
    have hopen : (Doc.text "import * as ").Cuts t Anything
        [.word .importKw, .sign .star, .word .asKw] := by
      refine Doc.cuts_text (fun rest _ => ?_) (by simp) (by decide)
      have hboundary (rest : List Char) : Boundary (' ' :: rest) :=
        boundary_cons (by decide) (by decide)
      show cut t (Keyword.importKw.spelling.toList ++ ' ' :: (Punct.star.spelling.toList ++
        ' ' :: (Keyword.asKw.spelling.toList ++ ' ' :: rest))) = _
      rw [cut_token (by decide) rfl (classify_keyword (by cases t <;> decide) (hboundary _)),
        cut_space, cut_token (by decide) rfl (k := .punct .star) (by cases t <;> rfl), cut_space,
        cut_token (by decide) rfl (classify_keyword (by cases t <;> decide) (hboundary _)),
        cut_space, Cut.prepend_prepend, Cut.prepend_prepend]
      rfl
    have hfrom : (Doc.text " from ").Cuts t Anything [.word .fromKw] :=
      cuts_spaceWordSpace rfl (by cases t <;> decide)
    have hstart : startsWith "import" "import * as ".toList = true := by decide
    have hname := cuts_concat hopen (cuts_name h.1) Doc.leads_anything hstart (by simp)
    have hword := cuts_concat hname hfrom (leads_space rfl) (startsWith_concat hstart) (by simp)
    have hend := cuts_concat hword (cuts_path h.2) Doc.leads_anything
      (startsWith_concat (startsWith_concat hstart)) (by simp)
    exact Doc.cuts_freshLine.then (cuts_concat hend semicolon_cuts semicolon_leads
      (startsWith_concat (startsWith_concat (startsWith_concat hstart))) (by simp))

theorem cuts_imports {is : List Import} (h : ∀ i ∈ is, i.Genuine t) :
    (Doc.concat (is.map Print.importLine)).Cuts t Anything (is.flatMap importPieces) := by
  induction is with
  | nil => exact Doc.cuts_empty
  | cons i is ih =>
    rw [List.forall_mem_cons] at h
    exact (cuts_importLine h.1).then (ih h.2)

theorem leads_imports (is : List Import) :
    (Doc.concat (is.map Print.importLine)).Leads LineEnd LineEnd := by
  cases is with
  | nil => exact Doc.leads_empty
  | cons i is => cases i <;> exact Doc.leads_of_startsLine rfl

/-- Imports are read back from their `importPieces`, before a token that begins none. -/
theorem reads_imports (is : List Import) {S : Tape} (hS : S.kind ≠ .keyword .importKw) :
    Reads t .imports (is.flatMap importPieces ++ S) is S := by
  induction is with
  | nil => exact .importsNone hS
  | cons i is ih =>
    cases i with
    | names ns path =>
      have hnames (R : Tape) : Reads t .names (namePieces ns ++ .sign .rbrace :: R) ns _ :=
        reads_names ns nofun nofun
      simp only [List.flatMap_cons, importPieces, List.cons_append, List.append_assoc,
        List.nil_append]
      exact .importsMore .cons (.importNames .cons (hnames _) .cons .cons (.token _ _ _))
        (.endSemicolon .cons) ih
    | whole name path =>
      exact .importsMore .cons (.importWhole .cons .cons (.token _ _ _) .cons (.token _ _ _))
        (.endSemicolon .cons) ih

/-! ## Files -/

/-- The pieces of a module line. -/
def modulePieces (name : Option String) : Tape :=
  name.toList.flatMap fun n => [.word .moduleKw, .name n, .sign .semicolon]

/-- The pieces of a file, apart from its `trailer`. -/
def filePieces (t : Dialect) (p : Program) : Tape :=
  p.leading.map .comment ++ (modulePieces p.moduleName ++
    (p.imports.flatMap importPieces ++ Declaration.piecesOf t p.body))

/-- The comments that a block begins with. `Declaration.ending` has those that it ends with. -/
def Declaration.opening : Block → List Comment
  | .comments cs :: _ => cs
  | _ => []

/-- Settling a block does not touch the comments that it begins with. -/
theorem Declaration.opening_settles (s : Surface) (body : Block) :
    opening (settles s body) = opening body := by
  cases body with
  | nil => rfl
  | cons x xs =>
    cases x with
    | var keyword name value exported => cases value <;> rfl
    | _ => rfl

/-- What is read as a `declaration` is no group of comments. -/
theorem Reads.opening_cons {d : Dialect} {S S' : Tape} {x : Declaration}
    (h : Reads d .declaration S x S') (xs : Block) : Declaration.opening (x :: xs) = [] := by
  cases h <;> rfl

/-- Declarations begin with the comments that wait before them, `Tape.waiting`. -/
theorem Reads.opening_eq {d : Dialect} {S S' : Tape} {body : Block}
    (h : Reads d .declarations S body S') : Declaration.opening body = S.waiting := by
  cases h with
  | declarationsEnd _ => cases S.waiting <;> rfl
  | declarationsMore hx _ =>
    cases S.waiting with
    | nil => exact hx.opening_cons _
    | cons c cs => rfl

/-- A program, apart from its trailer, is printed as its pieces and read back: all its parts
are, and the comments at its top are those of the file, as `top` says. -/
structure FileAs (t : Dialect) (p : Program) : Prop where
  leading : ∀ c ∈ p.leading, c.Genuine t
  moduleName : ∀ m ∈ p.moduleName, t = .block ∧ IsName t m
  imports : ∀ i ∈ p.imports, i.Genuine t
  body : DeclarationsAs t p.body (Declaration.piecesOf t p.body)
  top : p.moduleName = none → p.imports = [] → Declaration.opening p.body = []

section File

variable {p : Program}

/-- The module line of a file, if it has one, as `Program.doc` prints it. -/
def Print.moduleLine (s : Surface) : Option String → Doc
  | some name => Doc.freshLine ++ s.moduleLead ++ name ++ ";"
  | none => .empty

/-- The module line is cut into its `modulePieces`. A file that is `FileAs` has one only in the
block dialect. -/
theorem FileAs.cuts_moduleLine (h : FileAs t p) :
    (Print.moduleLine t.surface p.moduleName).Cuts t LineEnd (modulePieces p.moduleName) ∧
      (Print.moduleLine t.surface p.moduleName).Leads LineEnd LineEnd := by
  have hname := h.moduleName
  cases hm : p.moduleName with
  | none => exact ⟨Doc.cuts_empty, Doc.leads_empty⟩
  | some m =>
    obtain ⟨rfl, hm⟩ := hname m hm
    have hmodule : (Doc.text "module ").Cuts .block Anything [.word .moduleKw] :=
      cuts_wordSpace rfl (by decide)
    refine ⟨?_, Doc.leads_of_startsLine rfl⟩
    exact ((Doc.cuts_freshLine.then hmodule).then (cuts_name hm)).append semicolon_cuts
      semicolon_leads

/-- What `Program.doc` prints of a file before its trailer. -/
def Program.mainDoc (s : Surface) (p : Program) : Doc :=
  Print.comments p.leading ++ Print.moduleLine s p.moduleName
    ++ Doc.concat (p.imports.map Print.importLine) ++ Declaration.docs s p.body

/-- A file is its `mainDoc`, its trailer and a line feed. -/
theorem Program.doc_eq (s : Surface) (p : Program) :
    p.doc s = p.mainDoc s
      ++ (if p.trailer.isEmpty then .empty else Doc.lineFeed ++ Doc.freshLine ++ p.trailer)
      ++ Doc.lineFeed := by
  obtain ⟨leading, moduleName, imports, body, trailer⟩ := p
  cases moduleName <;> rfl

/-- What is printed of a file before its trailer is cut into its `filePieces`. -/
theorem FileAs.cuts (h : FileAs t p) :
    (p.mainDoc t.surface).Cuts t LineEnd (filePieces t p) := by
  have ⟨hmodule, hlead⟩ := h.cuts_moduleLine
  exact ((((cuts_comments h.leading).append hmodule hlead).append
    (cuts_imports h.imports).anywhere (leads_imports _)).append h.body.cuts
    (Declaration.leads_docs _ _)).pieces (by simp [filePieces])

/-- Declarations up to the end of a file are read back as their `settles`. -/
theorem FileAs.reads_body (h : FileAs t p) :
    Reads t .declarations (Declaration.piecesOf t p.body ++ [.token .eof ""])
      (Declaration.settles t.surface p.body) [.token .eof ""] :=
  h.body.reads _ (by cases t <;> rfl) rfl fun _ => nofun

/-- Imports and what follows them: the `filePieces` after the module line. -/
def Program.rest (t : Dialect) (p : Program) : Tape :=
  p.imports.flatMap importPieces ++ (Declaration.piecesOf t p.body ++ [.token .eof ""])

/-- A file with imports goes on with the word of the first one. -/
theorem rest_opens (t : Dialect) (h : p.imports ≠ []) : ∃ R, p.rest t = .word .importKw :: R := by
  unfold Program.rest
  obtain ⟨i, is, his⟩ := List.exists_cons_of_ne_nil h
  rw [his]
  cases i <;> exact ⟨_, rfl⟩

/-- No module line stands in `Program.rest`, and the imports are read from it. -/
theorem FileAs.reads_rest (h : FileAs t p) :
    (p.rest t).kind ≠ .keyword .moduleKw ∧ BeforeImports (p.rest t) [] (p.rest t) ∧
      Reads t .imports (p.rest t) p.imports
        (Declaration.piecesOf t p.body ++ [.token .eof ""]) := by
  have hkind {w : Keyword} (hw : startsDeclaration t (.keyword w) = false) :
      Tape.kind (Declaration.piecesOf t p.body ++ [.token .eof ""]) ≠ .keyword w :=
    h.reads_body.kind_of_declarations hw nofun
  have himport := hkind (w := .importKw) (by cases t <;> rfl)
  -- with imports their first word comes next, and without them a declaration does
  refine ⟨?_, ?_, reads_imports p.imports himport⟩ <;> by_cases his : p.imports = []
  · rw [Program.rest, his]
    exact hkind (by cases t <;> rfl)
  · obtain ⟨R, hR⟩ := rest_opens t his
    rw [hR]
    nofun
  · rw [Program.rest, his]
    exact .kept himport
  · obtain ⟨R, hR⟩ := rest_opens t his
    rw [hR]
    exact BeforeImports.taken (S := .word .importKw :: R) rfl

/-- Before the imports of a file without a module line no comment waits: this is what
`FileAs.top` is for. -/
theorem FileAs.waiting_rest (h : FileAs t p) (hm : p.moduleName = none) :
    (p.rest t).waiting = [] := by
  by_cases his : p.imports = []
  · have hopening := h.reads_body.opening_eq
    rw [Declaration.opening_settles, h.top hm his] at hopening
    rw [Program.rest, his]
    exact hopening.symm
  · obtain ⟨R, hR⟩ := rest_opens t his
    rw [hR]
    rfl

theorem filePieces_end (t : Dialect) (p : Program) :
    filePieces t p ++ [.token .eof ""]
      = p.leading.map .comment ++ (modulePieces p.moduleName ++ p.rest t) := by
  simp [filePieces, Program.rest]

theorem Declaration.eq_nil_of_settles {s : Surface} {xs : Block}
    (h : Declaration.settles s xs = []) : xs = [] := by
  cases xs with
  | nil => rfl
  | cons x xs => simp [Declaration.settles] at h

/-- Declarations before which the file ends are none, or the comments that wait. -/
theorem Reads.declarations_of_eof {S S' : Tape} {xs : Block} (h : Reads t .declarations S xs S')
    (hS : S.kind = .eof) : xs = Comment.declare S.waiting := by
  cases h with
  | declarationsEnd _ => rfl
  | declarationsMore hx _ =>
    have hstarts := hx.startsDeclaration
    rw [Tape.kind_flush, hS] at hstarts
    cases t <;> exact absurd hstarts (by decide)

/-- A file that holds something is not `Blank`. -/
theorem FileAs.not_blank (h : FileAs t p) (hne : p ≠ .empty) :
    ¬Blank (filePieces t p ++ [.token .eof ""]) (nonempty? p.trailer) := by
  rintro ⟨hkind, hwaiting, htrailer⟩
  rw [filePieces_end, Tape.kind_map_comment] at hkind
  rw [filePieces_end, Tape.waiting_map_comment, List.append_eq_nil_iff] at hwaiting
  -- part by part: each one that is there would bring a token or a comment
  have hmodule : p.moduleName = none := by
    cases hm : p.moduleName with
    | none => rfl
    | some m =>
      rw [hm] at hkind
      cases hkind
  rw [hmodule] at hkind hwaiting
  have himports : p.imports = [] := by
    by_contra his
    obtain ⟨R, hR⟩ := rest_opens t his
    rw [hR] at hkind
    cases hkind
  have hrest : p.rest t = Declaration.piecesOf t p.body ++ [.token .eof ""] := by
    rw [Program.rest, himports]
    rfl
  have hbody : p.body = [] := by
    have hnone := h.reads_body.declarations_of_eof (hrest ▸ hkind)
    rw [← hrest, h.waiting_rest hmodule] at hnone
    exact Declaration.eq_nil_of_settles hnone
  have htrailer : p.trailer = "" := by
    have hgetD := getD_nonempty? p.trailer
    rw [htrailer] at hgetD
    exact hgetD.symm
  refine hne ?_
  obtain ⟨leading, moduleName, imports, body, trailer⟩ := p
  exact Program.mk.injEq .. ▸ ⟨hwaiting.1, hmodule, himports, hbody, htrailer⟩

/-- A printed file is read back from its `filePieces`, with its body as the block `settles`. -/
theorem FileAs.reads (h : FileAs t p) (hne : p ≠ .empty) :
    ReadsProgram t (filePieces t p ++ [.token .eof ""]) (nonempty? p.trailer)
      { p with body := Declaration.settles t.surface p.body } := by
  obtain ⟨hmodule, hbefore, himports⟩ := h.reads_rest
  -- the leading comments are all that waits at the start
  have hwaiting : (modulePieces p.moduleName ++ p.rest t).waiting = [] := by
    cases hm : p.moduleName with
    | none => exact h.waiting_rest hm
    | some m => rfl
  have hline : ModuleLine t (modulePieces p.moduleName ++ p.rest t) p.moduleName (p.rest t) := by
    cases p.moduleName with
    | none => exact .none hmodule
    | some m => exact .some .cons (.token _ _ _) (.endSemicolon .cons)
  have hread := ReadsProgram.mk (d := t) (S := filePieces t p ++ [.token .eof ""])
    (h.not_blank hne)
    (by rw [filePieces_end, Tape.flush_map_comment, Tape.flush_of_waiting hwaiting]; exact hline)
    hbefore himports h.reads_body rfl
  rw [filePieces_end, Tape.waiting_map_comment, hwaiting, List.append_nil, List.append_nil,
    ← filePieces_end, getD_nonempty?] at hread
  exact hread

end File

end Diglot

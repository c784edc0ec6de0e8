import Diglot.Proofs.Files

/-!
# The comments that a file ends with

Of the comments that a printed file ends with, some are read as its trailer, unless it has one
already: those from the first marker on that only line comments follow. So what is read back is the
program with these comments promoted.

- `Program.finals`: the comments that a file ends with; `Program.replaceFinals`: others instead.
- `Program.promote`: a program with the comments that are read as its trailer in their place.
- `FileAs.cut_text`: the pieces and the trailer of a printed file, unless a sign is spoilt.
- `FileAs.promote`: the promoted program is read from them.
-/

namespace Diglot

open Rules Lexeme Comment

variable {t : Dialect}

/-! ## Promotion -/

/-- Of the comments that a file ends with, those that stay comments, `remaining`, and those that
are read as its trailer, `trailing`, if it has none yet. -/
def Comment.promote (cs : List Comment) (trailer : String) : List Comment × String :=
  if trailer = "" then (remaining cs, joined (trailing cs)) else (cs, trailer)

namespace Program

variable (p : Program)

/-- Whether a program holds nothing but `leading` comments. -/
def isBare : Bool :=
  p.moduleName.isNone && p.imports.isEmpty && p.body.isEmpty

/-- The comments that a file ends with. Those of a file that `isBare` are at its top. -/
def finals : List Comment :=
  if p.isBare then p.leading else Declaration.ending p.body

/-- A program with other comments instead of its `finals`. -/
def replaceFinals (cs : List Comment) : Program :=
  if p.isBare then { p with leading := cs }
  else { p with body := Declaration.beforeEnding p.body ++ Comment.declare cs }

/-- A program with the comments at its end that are read as its trailer in their place, as
`Comment.promote` sorts them. -/
def promote : Program :=
  { p.replaceFinals (Comment.promote p.finals p.trailer).1 with
    trailer := (Comment.promote p.finals p.trailer).2 }

end Program

section Promotion

variable {p : Program}

theorem Program.eq_of_isBare (h : p.isBare = true) :
    p.moduleName = none ∧ p.imports = [] ∧ p.body = [] := by
  simpa [Program.isBare, and_assoc] using h

/-- The comments at the end of a file that is printed as its pieces are genuine. -/
theorem BodyAs.finals (hbody : BodyAs t p.body) (h : FileAs t p) :
    ∀ c ∈ p.finals, c.Genuine t := by
  unfold Program.finals
  split
  · exact h.leading
  · exact hbody.ending

/-- A file is found again when its own `finals` are put at its end. -/
theorem BodyAs.replaceFinals_finals (hbody : BodyAs t p.body) : p.replaceFinals p.finals = p := by
  unfold Program.replaceFinals Program.finals
  split
  · rfl
  · rw [← hbody.ends]

/-- The comments at the end are the last of the `filePieces`. -/
theorem filePieces_replaceFinals (cs : List Comment) :
    filePieces t (p.replaceFinals cs) = filePieces t (p.replaceFinals []) ++ cs.map .comment := by
  unfold Program.replaceFinals
  split
  · next h =>
    obtain ⟨hm, hi, hb⟩ := Program.eq_of_isBare h
    simp [filePieces, modulePieces, hm, hi, hb, Declaration.piecesOf]
  · simp [filePieces, Declaration.piecesOf_append, Declaration.piecesOf_declare]

theorem Declaration.opening_append {xs : Block} (h : xs ≠ []) (ys : Block) :
    Declaration.opening (xs ++ ys) = Declaration.opening xs := by
  obtain ⟨x, xs, rfl⟩ := List.exists_cons_of_ne_nil h
  cases x <;> rfl

/-- Declarations at the top of a file that are not only comments: something is left
`beforeEnding`. -/
theorem BodyAs.beforeEnding_ne_nil (hbody : BodyAs t p.body)
    (htop : Declaration.opening p.body = []) (hne : p.body ≠ []) :
    Declaration.beforeEnding p.body ≠ [] := by
  intro hnil
  have hends := hbody.ends
  rw [hnil, List.nil_append] at hends
  rw [hends] at htop hne
  cases hcs : Declaration.ending p.body with
  | nil => exact hne (by rw [hcs]; rfl)
  | cons c cs =>
    rw [hcs] at htop
    cases htop

/-- Other comments at the end keep a file one that is printed as its pieces. -/
theorem FileAs.replaceFinals (h : FileAs t p) (hbody : BodyAs t p.body) (cs : List Comment)
    (hcs : ∀ c ∈ cs, c.Genuine t) : FileAs t (p.replaceFinals cs) := by
  unfold Program.replaceFinals
  split
  · exact ⟨hcs, h.moduleName, h.imports, h.body, h.top⟩
  · next hbare =>
    refine ⟨h.leading, h.moduleName, h.imports, hbody.reprint cs hcs, fun hm hi => ?_⟩
    have hne : p.body ≠ [] := by
      intro hnil
      exact hbare (by simp [Program.isBare, show p.moduleName = none from hm,
        show p.imports = [] from hi, hnil])
    have hbefore := hbody.beforeEnding_ne_nil (h.top hm hi) hne
    have htop := h.top hm hi
    rw [hbody.ends, Declaration.opening_append hbefore] at htop
    exact (Declaration.opening_append hbefore _).trans htop

theorem closed_imports {is : List Import} (h : is ≠ []) :
    Tape.Closed (is.flatMap importPieces) := by
  induction is with
  | nil => exact absurd rfl h
  | cons i is ih =>
    by_cases his : is = []
    · rw [his, List.flatMap_singleton]
      cases i with
      | names ns path =>
        exact .cons (.cons (.after (.after (Tape.closed_sign .semicolon)
          [.sign .rbrace, .word .fromKw, .token .string path]) _) _) _
      | whole name path =>
        exact .after (Tape.closed_sign .semicolon)
          [.word .importKw, .sign .star, .word .asKw, .name name, .word .fromKw,
            .token .string path]
    · exact .after (ih his) _

/-- Without its `finals`, a file does not end in a comment. -/
theorem FileAs.not_trails (h : FileAs t p) (hbody : BodyAs t p.body) :
    ¬(filePieces t (p.replaceFinals [])).Trails := by
  unfold Program.replaceFinals
  split
  · next hbare =>
    obtain ⟨hm, hi, hb⟩ := Program.eq_of_isBare hbare
    rintro ⟨P, c, Q, heq, -⟩
    simp [filePieces, modulePieces, hm, hi, hb, Declaration.piecesOf] at heq
  · next hbare =>
    refine Tape.Closed.not_trails ?_
    simp only [filePieces, Comment.declare, List.append_nil]
    by_cases hbefore : Declaration.beforeEnding p.body = []
    · rw [hbefore, Declaration.piecesOf, List.append_nil]
      refine .after ?_ _
      by_cases hi : p.imports = []
      · cases hm : p.moduleName with
        | none =>
          have hne : p.body ≠ [] := fun hnil => hbare (by simp [Program.isBare, hm, hi, hnil])
          exact absurd hbefore (hbody.beforeEnding_ne_nil (h.top hm hi) hne)
        | some m =>
          rw [hi]
          exact .after (Tape.closed_sign .semicolon) [.word .moduleKw, .name m]
      · exact .after (closed_imports hi) _
    · exact .after (.after (.after (hbody.closed hbefore) _) _) _

/-! ## Printed files, cut -/

/-- Comments are written as `Comment.lines`. The first line feed is left out at the start of a
page. -/
theorem Print.writes_comments {cs : List Comment} (h : ∀ c ∈ cs, c.Genuine t) {written : Bool}
    {T : List Char} (hT : (Print.comments cs).Writes [] written T) :
    T = if written then lines cs else (lines cs).drop 1 := by
  induction cs generalizing written T with
  | nil =>
    obtain rfl : T = [] := hT
    cases written <;> rfl
  | cons c cs ih =>
    rw [List.forall_mem_cons] at h
    obtain ⟨_, T, ⟨_, _, rfl, rfl, rfl⟩, hT, rfl⟩ := hT
    have hwritten : (written || !((if written then ['\n'] else []) ++ [] ++ c.text.toList).isEmpty)
        = true := by simp [h.1.ne_nil]
    rw [hwritten] at hT
    rw [ih h.2 hT]
    cases written <;> simp [lines]

/-- The end of a file: its trailer, if it has one, and a line feed. -/
def Print.fileEnd (trailer : String) : Doc :=
  (if trailer.isEmpty then .empty else Doc.lineFeed ++ Doc.freshLine ++ trailer) ++ Doc.lineFeed

theorem leads_fileEnd (trailer : String) : (Print.fileEnd trailer).Leads Anything LineEnd := by
  unfold Print.fileEnd
  split
  · exact Doc.leads_empty.append (Doc.leads_lineFeed lineEnd_newline)
  · exact Doc.leads_of_startsLine rfl

/-- What `fileEnd` is written as. Before a trailer a line is left empty. -/
theorem Print.writes_fileEnd {trailer : String} {written : Bool} {T : List Char}
    (hT : (Print.fileEnd trailer).Writes [] written T) :
    T = if trailer = "" then (if written then ['\n'] else [])
      else (if written then ['\n', '\n'] else []) ++ (trailer.toList ++ ['\n']) := by
  unfold Print.fileEnd at hT
  by_cases hempty : trailer = ""
  · rw [if_pos (by simpa using hempty)] at hT
    obtain ⟨_, _, rfl, rfl, rfl⟩ := hT
    rw [if_pos hempty]
    simp
  · rw [if_neg (by simpa using hempty)] at hT
    obtain ⟨_, _, ⟨_, _, ⟨_, _, rfl, rfl, rfl⟩, rfl, rfl⟩, rfl, rfl⟩ := hT
    have hne : trailer.toList ≠ [] := fun hnil => hempty (by rwa [← String.toList_inj])
    rw [if_neg hempty]
    cases written <;> simp [hne]

/-- A trailer at the end of a text is found by `cut`, with nothing else. -/
theorem cut_trailer {text : String} (h : Genuine t text .outputComment) :
    cut t (text.toList ++ ['\n']) = { tape := [.token .eof ""], trailer := some text } := by
  have hafter : AfterTrailer ['\n'] := ⟨lineEnd_newline _, by decide, by decide⟩
  have hne : text.toList ≠ [] := fun hnil => h.1 (by rwa [← String.toList_inj])
  have hclassify := classify_outputComment_append t h hafter
  rw [cut_append hne (by rw [hclassify, String.length_toList]), cut_newline, cut_nil,
    String.ofList_toList]
  rfl

/-- What is written at the end of a file holds its trailer and no tokens. -/
theorem cut_fileEnd {trailer : String} (h : trailer ≠ "" → Genuine t trailer .outputComment)
    {written : Bool} {T : List Char} (hT : (Print.fileEnd trailer).Writes [] written T) :
    cut t T = { tape := [.token .eof ""], trailer := nonempty? trailer } := by
  rw [Print.writes_fileEnd hT, nonempty?]
  by_cases hempty : trailer = ""
  · rw [if_pos hempty, if_pos hempty]
    cases written <;> simp
  · rw [if_neg hempty, if_neg hempty]
    cases written <;> simp [cut_trailer (h hempty)]

theorem slashes_of_trailer {text : String} (h : Genuine t text .outputComment) :
    startsWith "//" text.toList = true := by
  have hpos : 0 < outputComment text.toList := by
    rw [h.2]
    exact length_pos_of_ne_empty h.1
  unfold outputComment at hpos
  split at hpos
  · next hstart => exact (Bool.and_eq_true_iff.1 hstart).1
  · exact absurd hpos (by simp)

/-- After an empty line no trailer goes on: the text is `Barred`. -/
theorem barred_emptyLine {text : String} (h : Genuine t text .outputComment) :
    Barred ('\n' :: '\n' :: (text.toList ++ ['\n'])) := by
  obtain ⟨tail, htail⟩ := startsWith_iff.1 (slashes_of_trailer (t := t) h)
  rw [Barred, trailerLines, if_pos (by rfl), htail]
  intro hblank
  exact absurd (List.all_eq_true.1 hblank '/' (by simp)) (by decide)

/-- How the end of a file is cut, from the comments at its end on: as `Comment.promote` says. -/
theorem cut_finals {cs : List Comment} (h : ∀ c ∈ cs, c.Genuine t) {trailer : String}
    (htrailer : trailer ≠ "" → Genuine t trailer .outputComment) {written : Bool}
    {T₁ T₂ : List Char} (hT₁ : (Print.comments cs).Writes [] written T₁)
    (hT₂ : (Print.fileEnd trailer).Writes [] (written || !T₁.isEmpty) T₂) :
    cut t (T₁ ++ T₂) =
      { tape := (promote cs trailer).1.map .comment ++ [.token .eof ""],
        trailer := nonempty? (promote cs trailer).2 } := by
  have hlines := Print.writes_comments h hT₁
  cases cs with
  | nil =>
    obtain rfl : T₁ = [] := hT₁
    rw [List.nil_append, cut_fileEnd htrailer hT₂, Comment.promote]
    split
    · next hempty =>
      rw [hempty]
      rfl
    · rfl
  | cons c cs =>
    -- with a comment in front, the trailer comes after an empty line
    have hne : T₁ ≠ [] := by
      rw [hlines]
      cases written <;> simp [lines, (h c (by simp)).ne_nil]
    have hcut : cut t (T₁ ++ T₂) = cut t (lines (c :: cs) ++ T₂) := by
      rw [hlines]
      cases written with
      | true => rfl
      | false => simp [lines]
    have hwritten : (written || !T₁.isEmpty) = true := by simp [hne]
    rw [hwritten] at hT₂
    have hend := Print.writes_fileEnd hT₂
    rw [hcut, Comment.promote]
    by_cases hempty : trailer = ""
    · rw [if_pos hempty] at hend ⊢
      rw [hend, if_pos rfl, cut_lines h]
    · rw [if_neg hempty] at hend ⊢
      have hbarred := barred_emptyLine (htrailer hempty)
      rw [hend, if_pos rfl]
      show cut t (lines (c :: cs) ++ '\n' :: '\n' :: (trailer.toList ++ ['\n'])) = _
      rw [cut_lines_of_barred h (lineEnd_newline _) hbarred, cut_newline, cut_newline,
        cut_trailer (htrailer hempty), nonempty?, if_neg hempty]
      rfl

theorem Declaration.writes_docs_append {s : Surface} {xs ys : Block} {indent T : List Char}
    {written : Bool} (h : (Declaration.docs s (xs ++ ys)).Writes indent written T) :
    (Declaration.docs s xs ++ Declaration.docs s ys).Writes indent written T := by
  induction xs generalizing written T with
  | nil => exact ⟨[], T, rfl, by simpa using h, rfl⟩
  | cons x xs ih =>
    obtain ⟨T₁, T₂, hT₁, hT₂, rfl⟩ := h
    exact Doc.writes_append_assoc.2 ⟨T₁, T₂, hT₁, ih hT₂, rfl⟩

theorem Print.writes_declare {s : Surface} {cs : List Comment} {indent T : List Char}
    {written : Bool} (h : (Declaration.docs s (Comment.declare cs)).Writes indent written T) :
    (Print.comments cs).Writes indent written T := by
  cases cs with
  | nil => exact h
  | cons c cs =>
    obtain ⟨T, _, hT, rfl, rfl⟩ := h
    rw [List.append_nil]
    exact hT

/-- The `finals` are what is printed last of a file before its trailer. -/
theorem BodyAs.writes_mainDoc (hbody : BodyAs t p.body) {s : Surface} {T : List Char}
    (hT : (p.mainDoc s).Writes [] false T) :
    ((p.replaceFinals []).mainDoc s ++ Print.comments p.finals).Writes [] false T := by
  unfold Program.replaceFinals Program.finals
  split
  · next hbare =>
    obtain ⟨hm, hi, hb⟩ := Program.eq_of_isBare hbare
    simp only [Program.mainDoc, hm, hi, hb] at hT ⊢
    obtain ⟨_, _, ⟨_, _, ⟨T, _, hT, rfl, rfl⟩, rfl, rfl⟩, rfl, rfl⟩ := hT
    refine ⟨[], T, ⟨[], [], ⟨[], [], ⟨[], [], rfl, rfl, rfl⟩, rfl, rfl⟩, rfl, rfl⟩, ?_, by simp⟩
    simpa using hT
  · rw [Program.mainDoc, hbody.ends] at hT
    obtain ⟨T₁, _, hT₁, hdocs, rfl⟩ := hT
    obtain ⟨T₂, T₃, hT₂, hT₃, rfl⟩ := Declaration.writes_docs_append hdocs
    refine Doc.writes_append_assoc.2 ⟨T₁, T₂ ++ T₃, hT₁, ⟨T₂, T₃, ?_, ?_, rfl⟩, rfl⟩
    · simpa [Comment.declare] using hT₂
    · exact Print.writes_declare hT₃

/-- The pieces and the trailer of a printed file are those of `Program.promote`, unless a sign
among them is `Spoilt`. -/
theorem FileAs.cut_text (h : FileAs t p) (hbody : BodyAs t p.body)
    (htrailer : p.trailer ≠ "" → Genuine t p.trailer .outputComment) {T : List Char}
    (hT : (p.doc t.surface).Writes [] false T) :
    cut t T = { tape := filePieces t p.promote ++ [.token .eof ""],
                trailer := nonempty? p.promote.trailer } ∨
      (cut t T).Spoilt (filePieces t p.promote) := by
  have hwrites : ((p.replaceFinals []).mainDoc t.surface ++ Print.comments p.finals
      ++ Print.fileEnd p.trailer).Writes [] false T := by
    rw [Program.doc_eq] at hT
    obtain ⟨T₁, T₂, hmain, hend, rfl⟩ := Doc.writes_append_assoc.1 hT
    exact ⟨T₁, T₂, hbody.writes_mainDoc hmain, hend, rfl⟩
  obtain ⟨T₁, R, hhead, hrest, rfl⟩ := Doc.writes_append_assoc.1 hwrites
  -- what follows the declarations begins with the end of a line, so it is cut alone
  have hline : T₁ ≠ [] → LineEnd R := by
    intro hne
    rw [show (false || !T₁.isEmpty) = true by simp [hne]] at hrest
    have hlead := ((leads_comments p.finals).append (leads_fileEnd p.trailer)) [] R [] (by simp)
      hrest trivial
    rwa [List.append_nil] at hlead
  obtain ⟨T₂, T₃, hcomments, hend, rfl⟩ := hrest
  have hcut := cut_finals (hbody.finals h) htrailer hcomments hend
  have hpieces : filePieces t p.promote = filePieces t (p.replaceFinals [])
      ++ (Comment.promote p.finals p.trailer).1.map .comment := filePieces_replaceFinals _
  have hfares := (h.replaceFinals hbody [] (by simp)).cuts [] false T₁ (T₂ ++ T₃)
    (by simp) hhead hline fun htrails => absurd htrails (h.not_trails hbody)
  rw [hpieces]
  by_cases hclear : ((p.replaceFinals []).mainDoc t.surface).Clear [] false T₁ (T₂ ++ T₃)
  · left
    rw [hfares.whole hclear, hcut]
    simp [Cut.prepend, Program.promote]
  · exact .inr ((hfares.spoilt hclear).append _)

/-- `promote` leaves a program as it is if it has a trailer, or no comment at its end is read as
one. -/
theorem Program.promote_eq_self (hends : p.replaceFinals p.finals = p)
    (h : p.trailer = "" → trailing p.finals = []) : p.promote = p := by
  have hpromote : Comment.promote p.finals p.trailer = (p.finals, p.trailer) := by
    unfold Comment.promote
    split
    · next hempty => rw [remaining_eq_self (h hempty), h hempty, hempty]; rfl
    · rfl
  rw [Program.promote, hpromote]
  simp only [hends]

/-- A file that is printed as its pieces stays one when its comments are promoted. -/
theorem FileAs.promote (h : FileAs t p) (hbody : BodyAs t p.body) : FileAs t p.promote := by
  have hfinals := hbody.finals h
  have hfile := h.replaceFinals hbody (Comment.promote p.finals p.trailer).1 (by
    unfold Comment.promote
    split
    · exact fun c hc => hfinals c (remaining_subset hc)
    · exact hfinals)
  exact ⟨hfile.leading, hfile.moduleName, hfile.imports, hfile.body, hfile.top⟩

/-- Promoting comments does not empty a file: they become its trailer. -/
theorem BodyAs.promote_ne_empty (hbody : BodyAs t p.body) (h : FileAs t p) (hne : p ≠ .empty) :
    p.promote ≠ .empty := by
  by_cases hself : p.trailer = "" → trailing p.finals = []
  · rwa [Program.promote_eq_self hbody.replaceFinals_finals hself]
  · obtain ⟨hempty, htrailing⟩ := Classical.not_imp.1 hself
    intro hpromoted
    have htrailer : joined (trailing p.finals) = "" := by
      have htrailer := congrArg Program.trailer hpromoted
      rwa [Program.promote, Comment.promote, if_pos hempty] at htrailer
    obtain ⟨c, cs, hcs⟩ := List.exists_cons_of_ne_nil htrailing
    have hc : c ∈ p.finals := trailing_subset (by rw [hcs]; exact List.mem_cons_self)
    rw [hcs] at htrailer
    exact joined_ne_empty (hbody.finals h c hc) cs htrailer

end Promotion

end Diglot

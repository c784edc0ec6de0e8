import Diglot.Proofs.Nodes
import Diglot.Proofs.Steady

/-!
# A page keeps no history

One page can take the texts of many trees, one after the other, and printing one of them may stop at
a fault with half of it written. None of this is seen in what comes later: the text of an expression
is always the same, and that of a program depends only on whether it is the first text on the page.
If it is not, a line feed comes before it, and a second one before what stands apart.

- `Item`, `Program.items`: what a program prints, from the top; `Item.standsApart` tells where a
  blank line comes before.
- `Doc.Placeless`: a document that adds the same to two pages that are alike.
- `Doc.Opens`: a document that adds the same to a fresh page and, after some line feeds, to a page
  that has been written on.
- `Job`, `Emitter.afterJobs`: printing one tree after the other.
- `Emitter.write_without_history`: what a tree adds to a page, whatever has been printed before.
-/

namespace Diglot

open Emitter

/-! ## Items -/

/-- A part of a program that is printed from a fresh line on. A `Declaration.comments` is no
item of its own: each of its comments is one. -/
inductive Item where
  | comment (c : Comment)
  | moduleName (name : String)
  | imported (i : Import)
  | declaration (x : Declaration) (hx : ∀ cs, x ≠ .comments cs)
  | trailer (output : String)

namespace Item

/-- The document of an item, as `Program.doc` and `Declaration.doc` have it. -/
def doc (s : Surface) : Item → Doc
  | comment c => Doc.freshLine ++ c.text
  | moduleName name => Doc.freshLine ++ s.moduleLead ++ name ++ ";"
  | imported i => Print.importLine i
  | declaration x _ => x.doc s
  | trailer output => Doc.lineFeed ++ Doc.freshLine ++ output

/-- Whether a blank line separates an item from what comes before it. -/
def standsApart : Item → Bool
  | declaration (.function ..) _ | trailer _ => true
  | _ => false

/-- The line feeds between an item and what comes before it: two if it `standsApart`. -/
def lead (i : Item) : String :=
  if i.standsApart then "\n\n" else "\n"

end Item

/-- The items of a `Declaration`: one, or the comments of a group. -/
def Declaration.items : Declaration → List Item
  | .function name params body exported isAsync =>
    [.declaration (.function name params body exported isAsync) nofun]
  | .var keyword name value exported => [.declaration (.var keyword name value exported) nofun]
  | .vars keyword names value exported => [.declaration (.vars keyword names value exported) nofun]
  | .statement st => [.declaration (.statement st) nofun]
  | .comments cs => cs.map .comment

/-- The items of a `Program`, from the top. -/
def Program.items (p : Program) : List Item :=
  p.leading.map .comment ++ p.moduleName.toList.map .moduleName ++ p.imports.map .imported
    ++ p.body.flatMap Declaration.items ++ if p.trailer.isEmpty then [] else [.trailer p.trailer]

/-- The line feeds before a program that does not begin a page: the `Item.lead` of its first
item. -/
def Program.lead (p : Program) : String :=
  match p.items with
  | [] => "\n"
  | i :: _ => i.lead

/-! ### A program is the row of its items -/

/-- `Doc.concat` of two lists is that of the one and then of the other, as far as writing goes. -/
theorem Doc.Same.concat_append (ds ds' : List Doc) :
    (Doc.concat (ds ++ ds')).Same (Doc.concat ds ++ Doc.concat ds') := by
  induction ds with
  | nil => exact (empty_append _).symm
  | cons d ds ih => exact ((Same.refl d).append ih).trans (append_assoc _ _ _).symm

theorem Doc.Same.concat_singleton (d : Doc) : (Doc.concat [d]).Same d :=
  append_empty d

/-- Comments are printed as their items. -/
theorem Print.comments_eq (s : Surface) (cs : List Comment) :
    Print.comments cs = Doc.concat ((cs.map Item.comment).map (Item.doc s)) := by
  induction cs with
  | nil => rfl
  | cons c cs ih =>
    rw [Print.comments, ih]
    rfl

/-- A declaration is written as the row of its `items`. -/
theorem Declaration.doc_same (s : Surface) (x : Declaration) :
    (x.doc s).Same (Doc.concat (x.items.map (Item.doc s))) := by
  cases x with
  | comments cs =>
    rw [Declaration.doc, Print.comments_eq s]
    exact .refl _
  | _ => exact (Doc.Same.concat_singleton _).symm

theorem Declaration.docs_same (s : Surface) (xs : Block) :
    (Declaration.docs s xs).Same
      (Doc.concat ((xs.flatMap Declaration.items).map (Item.doc s))) := by
  induction xs with
  | nil => exact .refl _
  | cons x xs ih =>
    rw [List.flatMap_cons, List.map_append]
    exact ((x.doc_same s).append ih).trans (Doc.Same.concat_append _ _).symm

/-- A program is written as the row of its `items`, with a line feed at the end. -/
theorem Program.doc_same (s : Surface) (p : Program) :
    (p.doc s).Same (Doc.concat (p.items.map (Item.doc s)) ++ Doc.lineFeed) := by
  have htrailer : ((if p.trailer.isEmpty then .empty
      else Doc.lineFeed ++ Doc.freshLine ++ p.trailer) : Doc).Same
        (Doc.concat ((if p.trailer.isEmpty then [] else [Item.trailer p.trailer]).map
          (Item.doc s))) := by
    cases p.trailer.isEmpty with
    | true => exact .refl _
    | false => exact (Doc.Same.concat_singleton _).symm
  have himports : Doc.concat (p.imports.map Print.importLine)
      = Doc.concat ((p.imports.map Item.imported).map (Item.doc s)) := by
    rw [List.map_map]
    rfl
  unfold Program.doc Program.items
  rw [Print.comments_eq s, himports]
  simp only [List.map_append]
  -- the parts are split off from the right: trailer, body, imports, module line
  refine Doc.Same.append ?_ (.refl _)
  refine .trans ?_ (Doc.Same.concat_append _ _).symm
  refine Doc.Same.append ?_ htrailer
  refine .trans ?_ (Doc.Same.concat_append _ _).symm
  refine Doc.Same.append ?_ (Declaration.docs_same s p.body)
  refine .trans ?_ (Doc.Same.concat_append _ _).symm
  refine Doc.Same.append ?_ (.refl _)
  refine .trans ?_ (Doc.Same.concat_append _ _).symm
  refine Doc.Same.append (.refl _) ?_
  cases p.moduleName with
  | none => exact .refl _
  | some name => exact (Doc.Same.concat_singleton _).symm

/-! ## Pairs of pages -/

/-- Two pages that take everything, neither of which is indented. -/
structure Emitter.Flush (e₁ e₂ : Emitter) : Prop where
  limit₁ : e₁.sink.limit = none
  limit₂ : e₂.sink.limit = none
  indent₁ : e₁.indent = ""
  indent₂ : e₂.indent = ""

/-- Two pages on which printing goes on alike: they are `Flush`, something has been written on
both of them or on none, and in the latter case both are at the same column. -/
structure Emitter.Alike (e₁ e₂ : Emitter) : Prop extends e₁.Flush e₂ where
  written : e₁.written = e₂.written
  column : e₁.written = false → e₁.position.column = e₂.position.column

/-- A fresh page, and one that has been written on. -/
structure Emitter.FreshAndUsed (e₁ e₂ : Emitter) : Prop extends e₁.Flush e₂ where
  fresh : e₁.written = false
  used : e₂.written = true
  column : e₁.position.column = 1

theorem Emitter.Flush.indent {e₁ e₂ : Emitter} (h : e₁.Flush e₂) : e₁.indent = e₂.indent :=
  h.indent₁.trans h.indent₂.symm

namespace Doc

/-- A document that `Adds` the same to two pages that are `Alike`. -/
def Placeless (d : Doc) : Prop :=
  ∀ e₁ e₂, Emitter.Alike e₁ e₂ → ∃ T stopped, d.Adds e₁ T stopped ∧ d.Adds e₂ T stopped

/-- A document that `Adds` the same to a fresh page and, after the line feeds of `lead`, to a
used one. -/
def Opens (lead : String) (d : Doc) : Prop :=
  ∀ e₁ e₂, Emitter.FreshAndUsed e₁ e₂ →
    ∃ T stopped, d.Adds e₁ T stopped ∧ d.Adds e₂ (lead.toList ++ T) stopped

/-- A document that `Adds` the same to two pages at the same column. -/
def Even (d : Doc) : Prop :=
  ∀ e₁ e₂ : Emitter, e₁.Flush e₂ → e₁.position.column = e₂.position.column →
    ∃ T stopped, d.Adds e₁ T stopped ∧ d.Adds e₂ T stopped

variable {a b d : Doc} {lead : String} {e₁ e₂ : Emitter} {T T₁ T₂ : List Char}

/-- Pages stay `Flush` while a document is added to both to its end. -/
theorem Adds.flush (h : e₁.Flush e₂) (h₁ : d.Adds e₁ T₁ none) (h₂ : d.Adds e₂ T₂ none) :
    (d.run e₁).1.Flush (d.run e₂).1 where
  limit₁ := h₁.wrote.limit
  limit₂ := h₂.wrote.limit
  indent₁ := h₁.wrote.indent.trans h.indent₁
  indent₂ := h₂.wrote.indent.trans h.indent₂

/-- Pages stay `Alike` while the same is added to them. -/
theorem Adds.alike (h : e₁.Alike e₂) (h₁ : d.Adds e₁ T none) (h₂ : d.Adds e₂ T none) :
    (d.run e₁).1.Alike (d.run e₂).1 where
  toFlush := Adds.flush h.toFlush h₁ h₂
  written := by rw [h₁.wrote.written, h₂.wrote.written, h.written]
  column := by
    rw [h₁.wrote.written, h₁.position, h₂.position, Bool.or_eq_false_iff]
    rintro ⟨hwritten, hnil⟩
    obtain rfl : T = [] := by simpa using hnil
    exact h.column hwritten

/-- A document that is `steady` after something has been written is `Placeless`. -/
theorem Placeless.of_steady (h : d.steady true = true) : d.Placeless :=
  fun _ _ he => exists_adds_of_steady h he.limit₁ he.limit₂ he.indent fun _ => he.written

/-- Two documents that are `Placeless`, one after the other: the first leaves pages that are
alike. -/
theorem Placeless.append (ha : a.Placeless) (hb : b.Placeless) : (a ++ b).Placeless := by
  intro e₁ e₂ he
  obtain ⟨T, stopped, ha₁, ha₂⟩ := ha e₁ e₂ he
  cases stopped with
  | some err => exact ⟨T, _, ha₁.append_of_some b, ha₂.append_of_some b⟩
  | none =>
    obtain ⟨T', stopped, hb₁, hb₂⟩ := hb _ _ (Adds.alike he ha₁ ha₂)
    exact ⟨T ++ T', stopped, ha₁.append hb₁, ha₂.append hb₂⟩

theorem Placeless.concat {ds : List Doc} (h : ∀ d ∈ ds, d.Placeless) :
    (Doc.concat ds).Placeless := by
  induction ds with
  | nil => exact .of_steady rfl
  | cons d ds ih =>
    rw [List.forall_mem_cons] at h
    exact h.1.append (ih h.2)

theorem Same.placeless (h : a.Same b) (hb : b.Placeless) : a.Placeless := by
  intro e₁ e₂ he
  obtain ⟨T, stopped, h₁, h₂⟩ := hb e₁ e₂ he
  exact ⟨T, stopped, h₁.of_run_eq (h e₁ he.limit₁), h₂.of_run_eq (h e₂ he.limit₂)⟩

/-! ### Lines -/

theorem Even.of_steady (h : d.steady false = true) : d.Even :=
  fun _ _ he _ => exists_adds_of_steady h he.limit₁ he.limit₂ he.indent nofun

/-- A text that may be wrapped, `Doc.within`, is wrapped on both pages or on none. -/
theorem Even.within {wrapped : Doc} (h : wrapped.steady false = true) (width : Nat)
    (inline : String) : (Doc.within width inline wrapped).Even := by
  intro e₁ e₂ he hcolumn
  have hpasses : e₂.passes width inline = e₁.passes width inline := by
    simp only [Emitter.passes, hcolumn]
  cases hpass : e₁.passes width inline with
  | true =>
    obtain ⟨T, stopped, hw₁, hw₂⟩ := Even.of_steady h e₁ e₂ he hcolumn
    exact ⟨T, stopped, hw₁.of_run_eq (by simp [Doc.run, hpass]),
      hw₂.of_run_eq (by simp [Doc.run, hpasses, hpass])⟩
  | false =>
    exact ⟨_, _, (adds_text he.limit₁ inline).of_run_eq (by simp [Doc.run, hpass]),
      (adds_text he.limit₂ inline).of_run_eq (by simp [Doc.run, hpasses, hpass])⟩

/-- The column on a fresh line that is not indented. -/
theorem column_freshLine {e : Emitter} (he : e.sink.limit = none) (hindent : e.indent = "") :
    (freshLine.run e).1.position.column = if e.written then 1 else e.position.column := by
  rw [(adds_freshLine he).position, hindent]
  cases e.written <;> rfl

/-- Two pages that are `Alike` are at the same column on a fresh line, so after one an `Even`
document is `Placeless`. -/
theorem Even.freshLine_append (hd : d.Even) : (freshLine ++ d).Placeless := by
  intro e₁ e₂ he
  have h₁ := adds_freshLine he.limit₁
  have h₂ := adds_freshLine he.limit₂
  rw [← he.written, ← he.indent] at h₂
  have hcolumn : (freshLine.run e₁).1.position.column = (freshLine.run e₂).1.position.column := by
    rw [column_freshLine he.limit₁ he.indent₁, column_freshLine he.limit₂ he.indent₂, ← he.written]
    cases hwritten : e₁.written with
    | true => rfl
    | false => exact he.column hwritten
  obtain ⟨T, stopped, hd₁, hd₂⟩ := hd _ _ (Adds.flush he.toFlush h₁ h₂) hcolumn
  exact ⟨_, stopped, h₁.append hd₁, h₂.append hd₂⟩

/-! ### Beginnings -/

theorem Same.opens (h : a.Same b) (hb : b.Opens lead) : a.Opens lead := by
  intro e₁ e₂ he
  obtain ⟨T, stopped, h₁, h₂⟩ := hb e₁ e₂ he
  exact ⟨T, stopped, h₁.of_run_eq (h e₁ he.limit₁), h₂.of_run_eq (h e₂ he.limit₂)⟩

/-- A line feed opens a page: on a fresh page it adds nothing, and so it does in
`opens_freshLine`. -/
theorem opens_lineFeed : lineFeed.Opens "\n" := by
  intro e₁ e₂ he
  have h₁ := adds_lineFeed he.limit₁
  have h₂ := adds_lineFeed he.limit₂
  rw [he.fresh] at h₁
  rw [he.used] at h₂
  exact ⟨[], none, h₁, h₂⟩

theorem opens_freshLine : freshLine.Opens "\n" := by
  intro e₁ e₂ he
  have h₁ := adds_freshLine he.limit₁
  have h₂ := adds_freshLine he.limit₂
  rw [he.fresh, he.indent₁] at h₁
  rw [he.used, he.indent₂] at h₂
  exact ⟨[], none, h₁, h₂⟩

/-- A line feed and a fresh line leave a blank line between two texts. -/
theorem opens_blankLine : (lineFeed ++ freshLine).Opens "\n\n" := by
  intro e₁ e₂ he
  have h₁ := adds_lineFeed he.limit₁
  have h₂ := adds_lineFeed he.limit₂
  have h₁' := adds_freshLine h₁.wrote.limit
  have h₂' := adds_freshLine h₂.wrote.limit
  rw [h₁.wrote.indent, h₁.wrote.written, he.fresh, he.indent₁] at h₁'
  rw [h₂.wrote.indent, h₂.wrote.written, he.used, he.indent₂] at h₂'
  rw [he.fresh] at h₁
  rw [he.used] at h₂
  exact ⟨[], none, h₁.append h₁', h₂.append h₂'⟩

/-- A beginning that `Opens` a page, and a document that adds the same to the two pages that it
leaves. -/
theorem Opens.append_of (ha : a.Opens lead)
    (hb : ∀ e₁ e₂ T, Emitter.FreshAndUsed e₁ e₂ → a.Adds e₁ T none →
      a.Adds e₂ (lead.toList ++ T) none →
        ∃ T' stopped, b.Adds (a.run e₁).1 T' stopped ∧ b.Adds (a.run e₂).1 T' stopped) :
    (a ++ b).Opens lead := by
  intro e₁ e₂ he
  obtain ⟨T, stopped, ha₁, ha₂⟩ := ha e₁ e₂ he
  cases stopped with
  | some err => exact ⟨T, _, ha₁.append_of_some b, ha₂.append_of_some b⟩
  | none =>
    obtain ⟨T', stopped, hb₁, hb₂⟩ := hb e₁ e₂ T he ha₁ ha₂
    refine ⟨T ++ T', stopped, ha₁.append hb₁, ?_⟩
    rw [← List.append_assoc]
    exact ha₂.append hb₂

/-- After a beginning that `marks` the page, both pages have been written on. -/
theorem Adds.written_of_marks (he : e₁.FreshAndUsed e₂) (ha₁ : a.Adds e₁ T₁ none)
    (ha₂ : a.Adds e₂ T₂ none) (hmarks : a.marks = true) :
    (a.run e₁).1.written = true ∧ (a.run e₂).1.written = true := by
  have hmarked : T₁.isEmpty = false := by simpa using ha₁.ne_nil hmarks he.limit₁
  rw [ha₁.wrote.written, ha₂.wrote.written, he.used, hmarked]
  simp

/-- What comes after a beginning may depend on whether something has been written only if the
beginning `marks` the page. -/
theorem Opens.append (ha : a.Opens lead) (hb : b.steady a.marks = true) :
    (a ++ b).Opens lead := by
  refine ha.append_of fun e₁ e₂ T he ha₁ ha₂ => ?_
  have hafter := Adds.flush he.toFlush ha₁ ha₂
  refine exists_adds_of_steady hb hafter.limit₁ hafter.limit₂ hafter.indent fun hmarks => ?_
  obtain ⟨h₁, h₂⟩ := Adds.written_of_marks he ha₁ ha₂ hmarks
  rw [h₁, h₂]

/-- A beginning that `marks` the page leaves pages that are `Alike`. -/
theorem Opens.append_placeless (ha : a.Opens lead) (hmarks : a.marks = true) (hb : b.Placeless) :
    (a ++ b).Opens lead := by
  refine ha.append_of fun e₁ e₂ T he ha₁ ha₂ => ?_
  obtain ⟨h₁, h₂⟩ := Adds.written_of_marks he ha₁ ha₂ hmarks
  refine hb _ _ ⟨Adds.flush he.toFlush ha₁ ha₂, h₁.trans h₂.symm, fun hwritten => ?_⟩
  rw [h₁] at hwritten
  cases hwritten

/-- An `Even` document after a fresh line opens a page with that line. -/
theorem Even.opens_freshLine_append (hd : d.Even) : (freshLine ++ d).Opens "\n" := by
  refine opens_freshLine.append_of fun e₁ e₂ T he h₁ h₂ => ?_
  refine hd _ _ (Adds.flush he.toFlush h₁ h₂) ?_
  rw [column_freshLine he.limit₁ he.indent₁, column_freshLine he.limit₂ he.indent₂, he.fresh,
    he.used]
  exact he.column

end Doc

/-! ## Items as documents -/

section Items

open Doc Print

variable (d : Dialect)

@[simp] theorem Dialect.surface_moduleLead_ne_empty : d.surface.moduleLead ≠ "" := by
  cases d <;> decide

@[simp] theorem VarKeyword.spelling_ne_empty (k : VarKeyword) : k.spelling ≠ "" := by
  cases k <;> decide

/-- An item that does not come to nothing: a comment or trailer that is not empty, or any other
`Item`. -/
def Item.Inscribed : Item → Prop
  | .comment c => c.text ≠ ""
  | .trailer output => output ≠ ""
  | _ => True

theorem Print.steady_importLines (ns : List String) : (importLines ns).steady true = true := by
  induction ns with
  | nil => rfl
  | cons n ns ih => simp [importLines, ih]

/-- The names of an import that is wrapped begin new lines only after its first word, so what
`importLine` prints is `Even` after its fresh line. -/
theorem Print.exists_importLine (i : Import) : ∃ rest : Doc,
    importLine i = Doc.freshLine ++ rest ∧ rest.Even ∧ rest.marks = true := by
  cases i with
  | names ns path =>
    have hfirst (known : Bool) : (firstName ns).steady known = true := by cases ns <;> rfl
    refine ⟨_, rfl, .within (by simp [hfirst, steady_importLines]) _ _, ?_⟩
    simp [Doc.marks]
  | whole name path =>
    refine ⟨_, rfl, .of_steady rfl, ?_⟩
    simp

/-- Every statement writes something, as `Doc.marks` tells. -/
theorem Statement.marks_doc (st : Statement) : (st.doc d.surface false).marks = true := by
  cases st with
  | ifThen test body other =>
    rcases other with _ | other
    · simp [Statement.doc, marks_branch]
    · cases other <;> simp [Statement.doc, marks_branch]
  | ret value => cases value <;> simp [Statement.doc]
  | _ => simp [Statement.doc, Print.block]

theorem Declaration.marks_doc {x : Declaration} (hx : ∀ cs, x ≠ .comments cs) :
    (x.doc d.surface).marks = true := by
  cases x with
  | var keyword name value exported => cases value <;> simp [Declaration.doc]
  | statement st => simp [Declaration.doc, st.marks_doc]
  | comments cs => exact absurd rfl (hx cs)
  | _ => simp [Declaration.doc]

/-- An item that is `Inscribed` writes something. -/
theorem Item.marks_doc {i : Item} (h : i.Inscribed) : (i.doc d.surface).marks = true := by
  cases i with
  | comment c => simpa [Item.doc] using .inr h
  | moduleName name => simp [Item.doc]
  | imported i =>
    obtain ⟨rest, hrest, -, hmarks⟩ := exists_importLine i
    simp [Item.doc, hrest, hmarks]
  | declaration x hx => exact x.marks_doc d hx
  | trailer output => simpa [Item.doc] using .inr h

/-- The document of an item is `Placeless`. -/
theorem Item.placeless (i : Item) : (i.doc d.surface).Placeless := by
  cases i with
  | imported i =>
    obtain ⟨rest, hrest, heven, -⟩ := exists_importLine i
    rw [Item.doc, hrest]
    exact heven.freshLine_append
  | declaration x hx => exact .of_steady (x.steady_doc d)
  | _ => exact .of_steady (by simp [Item.doc])

/-- A declaration begins with a fresh line, a function with a blank line, as `Item.lead` says. -/
theorem Declaration.opens_doc {x : Declaration} (hx : ∀ cs, x ≠ .comments cs) :
    (x.doc d.surface).Opens (Item.declaration x hx).lead := by
  cases x with
  | function name params body exported isAsync =>
    have hbody := Declaration.steady_docs d body
    unfold Declaration.doc
    -- the blank line is the beginning, and each of the eight parts after it is steady
    iterate 8 refine Opens.append ?_ ?_
    · exact opens_blankLine
    all_goals simp [exportWord, steady_block hbody]
  | var keyword name value exported =>
    cases value with
    | none =>
      unfold Declaration.doc
      iterate 5 refine Opens.append ?_ ?_
      · exact opens_freshLine
      all_goals simp [exportWord]
    | some value =>
      unfold Declaration.doc
      iterate 7 refine Opens.append ?_ ?_
      · exact opens_freshLine
      all_goals simp [exportWord, steady_fitted (value.steady_doc d)]
  | vars keyword names value exported =>
    unfold Declaration.doc
    iterate 7 refine Opens.append ?_ ?_
    · exact opens_freshLine
    all_goals simp [exportWord, Print.names, steady_fitted (value.steady_doc d)]
  | statement st => exact opens_freshLine.append (st.steady_doc d false)
  | comments cs => exact absurd rfl (hx cs)

/-- An item that begins a page is printed without the line feeds of its `lead`. -/
theorem Item.opens (i : Item) : (i.doc d.surface).Opens i.lead := by
  cases i with
  | comment c => exact opens_freshLine.append rfl
  | moduleName name => exact ((opens_freshLine.append rfl).append rfl).append rfl
  | imported i =>
    obtain ⟨rest, hrest, heven, -⟩ := exists_importLine i
    rw [Item.doc, hrest]
    exact heven.opens_freshLine_append
  | declaration x hx => exact x.opens_doc d hx
  | trailer output => exact opens_blankLine.append rfl

end Items

/-! ## Programs -/

/-- The document of a program is `Placeless`: it is the row of its items. -/
theorem Program.placeless_doc (d : Dialect) (p : Program) : (p.doc d.surface).Placeless := by
  refine (p.doc_same d.surface).placeless ((Doc.Placeless.concat fun doc hdoc => ?_).append
    (.of_steady rfl))
  obtain ⟨i, -, rfl⟩ := List.mem_map.1 hdoc
  exact i.placeless d

theorem Declaration.mem_nodesOf {x : Declaration} {xs : Block} {n : Node} (hx : x ∈ xs)
    (hn : n ∈ x.nodes) : n ∈ Declaration.nodesOf xs := by
  induction hx with
  | head xs => exact List.mem_append_left _ hn
  | tail y _ ih => exact List.mem_append_right _ ih

/-- The items of a program without empty comments are `Inscribed`. -/
theorem Program.inscribed_of_mem_items {p : Program} (h : ∀ c ∈ p.comments, c.text ≠ "") :
    ∀ i ∈ p.items, i.Inscribed := by
  have hleading : ∀ c ∈ p.leading, c.text ≠ "" := fun c hc => h c (List.mem_append_left _ hc)
  have hbody : ∀ x ∈ p.body, ∀ i ∈ x.items, i.Inscribed := by
    intro x hx i hi
    cases x with
    | comments cs =>
      obtain ⟨c, hc, rfl⟩ := List.mem_map.1 hi
      -- a group of comments in the body is a node, and its comments are the program's
      have hnode : Node.declaration (.comments cs) ∈ p.nodes :=
        Declaration.mem_nodesOf hx (by simp [Declaration.nodes])
      exact h c (List.mem_append_right _ (List.mem_flatMap.2 ⟨_, hnode, hc⟩))
    | _ =>
      obtain rfl := List.mem_singleton.1 hi
      trivial
  have htrailer : ∀ i ∈ (if p.trailer.isEmpty then [] else [Item.trailer p.trailer]),
      i.Inscribed := by
    cases hempty : p.trailer.isEmpty with
    | true => simp
    | false => simpa [Item.Inscribed] using hempty
  intro i hi
  simp only [Program.items, List.mem_append, List.mem_flatMap] at hi
  rcases hi with (((hi | hi) | hi) | ⟨x, hx, hi⟩) | hi
  · obtain ⟨c, hc, rfl⟩ := List.mem_map.1 hi
    exact hleading c hc
  · obtain ⟨name, -, rfl⟩ := List.mem_map.1 hi
    trivial
  · obtain ⟨i, -, rfl⟩ := List.mem_map.1 hi
    trivial
  · exact hbody x hx i hi
  · exact htrailer i hi

/-- A program that begins a page is printed without the line feeds of its `lead`. -/
theorem Program.opens_doc (d : Dialect) {p : Program} (h : ∀ c ∈ p.comments, c.text ≠ "") :
    (p.doc d.surface).Opens p.lead := by
  have hitems := Program.inscribed_of_mem_items h
  refine (p.doc_same d.surface).opens ?_
  unfold Program.lead
  generalize p.items = items at hitems
  cases items with
  | nil => exact (Doc.Same.empty_append _).opens Doc.opens_lineFeed
  | cons i items =>
    have hrest : (Doc.concat (items.map (Item.doc d.surface)) ++ Doc.lineFeed).Placeless := by
      refine (Doc.Placeless.concat fun doc hdoc => ?_).append (.of_steady rfl)
      obtain ⟨i, -, rfl⟩ := List.mem_map.1 hdoc
      exact i.placeless d
    exact (Doc.Same.append_assoc _ _ _).opens ((i.opens d).append_placeless
      (Item.marks_doc d (hitems i (by simp))) hrest)

/-! ## One tree after the other -/

/-- A tree that is to be printed. -/
inductive Job where
  | program (p : Program)
  | expr (x : Expr)

namespace Job

/-- Prints the tree of a job, with `writeProgram` or `writeExpr`. -/
def write (d : Dialect) (e : Emitter) : Job → Outcome
  | program p => e.writeProgram d p
  | expr x => e.writeExpr d x

/-- What a job adds to a page, and what stops it. The page is a fresh one, or one that has been
written on. -/
def output (d : Dialect) (used : Bool) (j : Job) : String × Option Error :=
  let r := j.write d { Emitter.ofSink .unlimited with written := used }
  (r.1.sink.text, r.2)

/-- The document that a job writes. -/
def doc (d : Dialect) : Job → Doc
  | program p => p.doc d.surface
  | expr x => x.fitted .comma (x.doc d.surface)

/-- Doing a job is running its document, `Job.doc`. -/
theorem write_eq (d : Dialect) (e : Emitter) (j : Job) : j.write d e = (j.doc d).run e := by
  cases j <;> rfl

theorem steady_doc_expr (d : Dialect) (x : Expr) : ((expr x).doc d).steady false = true :=
  Doc.steady_fitted (x.steady_doc d) _ _

/-- What a job adds does not depend on which page of two that are `Alike` it is written on. -/
theorem placeless_doc (d : Dialect) (j : Job) : (j.doc d).Placeless := by
  cases j with
  | program p => exact p.placeless_doc d
  | expr x => exact .of_steady (Doc.steady_mono (steady_doc_expr d x))

/-- What a job adds to a page of its own is its `output`. -/
theorem output_of_adds {d : Dialect} {used : Bool} {j : Job} {T : List Char}
    {stopped : Option Error}
    (h : (j.doc d).Adds { Emitter.ofSink .unlimited with written := used } T stopped) :
    j.output d used = (String.ofList T, stopped) := by
  simp only [output, write_eq, h.wrote.sink, h.stopped]
  simp [Emitter.ofSink, Sink.unlimited]

end Job

namespace Emitter

/-- The page after some jobs. One that is stopped does not keep the others from being done, as
`Job.write` gives a page in either case. -/
def afterJobs (d : Dialect) (js : List Job) (e : Emitter) : Emitter :=
  js.foldl (fun e j => (j.write d e).1) e

/-- A page with nothing but the text `T` on it, after what the sink held at the `start`. -/
structure Holds (start T : String) (e : Emitter) : Prop where
  sink : e.sink = { text := start ++ T, limit := none }
  indent : e.indent = ""
  position : e.position = Position.start.advance T.toList
  written : e.written = !T.isEmpty

theorem holds_ofSink (start : String) : (ofSink ⟨start, none⟩).Holds start "" where
  sink := by simp [ofSink]
  indent := rfl
  position := rfl
  written := rfl

/-- A page `Holds` what a document adds, also one that is stopped. -/
theorem Holds.of_adds {start T : String} {e : Emitter} (h : e.Holds start T) {doc : Doc}
    {T' : List Char} {stopped : Option Error} (hadds : doc.Adds e T' stopped) :
    (doc.run e).1.Holds start (T ++ .ofList T') where
  sink := by rw [hadds.wrote.sink, h.sink, String.append_assoc]
  indent := hadds.wrote.indent.trans h.indent
  position := by
    rw [hadds.position, h.position, ← Position.advance_append, String.toList_append,
      String.toList_ofList]
  written := by
    rw [hadds.wrote.written, h.written, Bool.eq_iff_iff]
    by_cases hT : T = "" <;> simp [hT]

theorem Holds.limit {start T : String} {e : Emitter} (h : e.Holds start T) :
    e.sink.limit = none := by
  rw [h.sink]

/-- A job, done or stopped, leaves a page that `Holds` a longer text. -/
theorem Holds.write {start T : String} {e : Emitter} (h : e.Holds start T) (d : Dialect)
    (j : Job) : ∃ T', (j.write d e).1.Holds start (T ++ T') := by
  obtain ⟨T', stopped, hadds⟩ := (j.doc d).exists_adds h.limit
  rw [Job.write_eq]
  exact ⟨.ofList T', h.of_adds hadds⟩

/-- Jobs leave a page that `Holds` a text: `Holds.write` for each of them. -/
theorem Holds.afterJobs {start T : String} {e : Emitter} (h : e.Holds start T) (d : Dialect)
    (js : List Job) : ∃ T', (e.afterJobs d js).Holds start T' := by
  induction js generalizing e T with
  | nil => exact ⟨T, h⟩
  | cons j js ih =>
    obtain ⟨T', hnext⟩ := h.write d j
    exact ih hnext

/-- A page that `Holds` a text is `Alike` any other one that has been written on, or has not. -/
theorem Holds.alike {start T : String} {e : Emitter} (h : e.Holds start T) :
    e.Alike { ofSink .unlimited with written := !T.isEmpty } where
  limit₁ := h.limit
  limit₂ := rfl
  indent₁ := h.indent
  indent₂ := rfl
  written := h.written
  column := by
    intro hwritten
    obtain rfl : T = "" := by simpa [h.written] using hwritten
    rw [h.position]
    rfl

/-- **A page keeps no history**: after any jobs, done or stopped, on a sink that takes everything,
what the next job adds is given by the job and by whether anything has been written before. For an
expression not even that counts. A program without empty comments adds to a used page what it adds
to a fresh one, after a line feed, or after two of them if what it prints first is a function or the
trailer. -/
theorem write_without_history (d : Dialect) (start : String) (js : List Job) (j : Job) :
    ∃ T : String,
      ((ofSink ⟨start, none⟩).afterJobs d js).sink.text = start ++ T ∧
      (j.write d ((ofSink ⟨start, none⟩).afterJobs d js)).1.sink.text =
        start ++ T ++ (j.output d (!T.isEmpty)).1 ∧
      (j.write d ((ofSink ⟨start, none⟩).afterJobs d js)).2 = (j.output d (!T.isEmpty)).2 ∧
      match j with
      | .expr x => (Job.expr x).output d true = (Job.expr x).output d false
      | .program p =>
        (∀ c ∈ p.comments, c.text ≠ "") →
          (Job.program p).output d true =
            (p.lead ++ ((Job.program p).output d false).1, ((Job.program p).output d false).2) := by
  obtain ⟨T, hpage⟩ := (holds_ofSink start).afterJobs d js
  generalize (ofSink ⟨start, none⟩).afterJobs d js = e at hpage
  -- the page after the jobs is like a new one that has been written on, or has not
  obtain ⟨T', stopped, hadds, houtput⟩ := j.placeless_doc d _ _ hpage.alike
  refine ⟨T, by rw [hpage.sink], ?_, ?_, ?_⟩
  · rw [Job.write_eq, hadds.wrote.sink, hpage.sink, Job.output_of_adds houtput]
  · rw [Job.write_eq, hadds.stopped, Job.output_of_adds houtput]
  cases j with
  | expr x =>
    -- an expression does not ask whether anything has been written
    obtain ⟨T, stopped, hused, hfresh⟩ := Doc.Even.of_steady (Job.steady_doc_expr d x)
      { ofSink .unlimited with written := true } { ofSink .unlimited with written := false }
      ⟨rfl, rfl, rfl, rfl⟩ rfl
    exact (Job.output_of_adds hused).trans (Job.output_of_adds hfresh).symm
  | program p =>
    intro hcomments
    obtain ⟨T, stopped, hfresh, hused⟩ := p.opens_doc d hcomments
      { ofSink .unlimited with written := false } { ofSink .unlimited with written := true }
      ⟨⟨rfl, rfl, rfl, rfl⟩, rfl, rfl, rfl⟩
    have hoff : (Job.program p).output d false = (String.ofList T, stopped) :=
      Job.output_of_adds hfresh
    have hon : (Job.program p).output d true = (String.ofList (p.lead.toList ++ T), stopped) :=
      Job.output_of_adds hused
    rw [hoff, hon, String.ofList_append, String.ofList_toList]

/-- An expression that stops half way, and then a program that begins with a function. -/
theorem write_without_history_function :
    let broken : Expr := .binary .add (.symbol "a") (.call (.symbol "f") (.symbol "x"))
    let p : Program :=
      { leading := [], moduleName := none, imports := []
        body := [.comments [], .function "g" [] [.comments [⟨.line, "// c"⟩]] false false]
        trailer := "" }
    (∀ c ∈ p.comments, c.text ≠ "") ∧
      ((ofSink ⟨"", none⟩).afterJobs .brace [.expr broken]).sink.text = "a + " ∧
      ((Job.program p).output .brace false).1 = "function g() \x7b\n  // c\n\x7d\n" ∧
      ((Job.program p).output .brace true).1 =
        "\n\n" ++ ((Job.program p).output .brace false).1 := by
  intro broken p
  have hcomments : ∀ c ∈ p.comments, c.text ≠ "" := by decide +kernel
  obtain ⟨T, -, -, -, h⟩ := write_without_history .brace "" [.expr broken] (.program p)
  refine ⟨hcomments, by decide +kernel, by decide +kernel, ?_⟩
  rw [h hcomments]
  rfl

end Emitter

end Diglot

import Diglot.Proofs.Defects
import Diglot.Proofs.History
import Diglot.Proofs.Positions

/-!
# A page knows what is on it

A page does not look back at its text. It keeps an indentation, a position, and whether anything has
been written, and moves them along with what it writes; a document that stops at a fault is left in
the middle of all this. Still they are always those of the text: what is kept after any trees have
been printed, in full or in part, can be counted off the text. So an import is wrapped for its own
width alone, since the column at which it begins is never any other than the first.

- `Print.inlineImport`, `Print.wrappedImport`: the two forms of an import of names.
- `Program.upTo`: a program that ends before one of its imports.
- `Emitter.Holds.adds_importLine`: the form in which a page takes an import.
- `Emitter.bookkeeping_exact`: what a page keeps, and how it takes imports, after any jobs.
-/

namespace Diglot

open Emitter

/-! ## The two forms of an import -/

namespace Print

/-- An import of names on one line. `Print.importLine` writes it, or the `wrappedImport`. -/
def inlineImport (ns : List String) (path : String) : String :=
  "import \x7b " ++ ", ".intercalate ns ++ " \x7d from " ++ path ++ ";"

/-- An import of names, one to a line. -/
def wrappedImport (ns : List String) (path : String) : String :=
  "import \x7b " ++ "\n       , ".intercalate ns ++ "\n       \x7d from " ++ path ++ ";"

/-- The form of an import that begins a line: `inlineImport` if it fits. -/
def importText (ns : List String) (path : String) : String :=
  if (inlineImport ns path).length ≤ 72 then inlineImport ns path else wrappedImport ns path

theorem importText_ne_empty (ns : List String) (path : String) : importText ns path ≠ "" := by
  unfold importText
  split <;> simp [inlineImport, wrappedImport]

theorem toList_intercalate_cons (separator n : String) (ns : List String) :
    (separator.intercalate (n :: ns)).toList =
      n.toList ++ ns.flatMap fun m => separator.toList ++ m.toList := by
  induction ns generalizing n with
  | nil => simp
  | cons m ns ih =>
    rw [String.intercalate_cons_cons, String.toList_append, String.toList_append, ih]
    simp

/-- The two forms part after the first name, where `wrappedImport` ends its line. -/
theorem exists_forms_part (ns : List String) (path : String) :
    ∃ (common rest rest' : List Char) (c : Char), c ≠ '\n' ∧
      (inlineImport ns path).toList = common ++ c :: rest ∧
      (wrappedImport ns path).toList = common ++ '\n' :: rest' := by
  simp only [inlineImport, wrappedImport, String.toList_append]
  cases ns with
  | nil => exact ⟨"import \x7b ".toList, _, _, ' ', by decide, rfl, rfl⟩
  | cons n ns =>
    simp only [toList_intercalate_cons, List.append_assoc]
    cases ns with
    | nil =>
      exact ⟨"import \x7b ".toList ++ n.toList, _, _, ' ', by decide,
        (List.append_assoc ..).symm, (List.append_assoc ..).symm⟩
    | cons m ns =>
      exact ⟨"import \x7b ".toList ++ n.toList, _, _, ',', by decide,
        (List.append_assoc ..).symm, (List.append_assoc ..).symm⟩

/-- Nothing that begins with `wrappedImport` begins with the other form. -/
theorem not_inlineImport_wrapped (ns : List String) (path : String) (after : List Char) :
    ¬(inlineImport ns path).toList <+: (wrappedImport ns path).toList ++ after := by
  obtain ⟨common, rest, rest', c, hc, hinline, hwrapped⟩ := exists_forms_part ns path
  rw [hinline, hwrapped, List.append_assoc, List.prefix_append_right_inj, List.cons_append,
    List.cons_prefix_cons]
  exact fun h => hc h.1

/-- The names of an import after the first, `importLines`, have a line feed and a comma before
them. -/
theorem eq_of_writes_importLines {ns : List String} {indent T : List Char}
    (h : (importLines ns).Writes indent true T) :
    T = ns.flatMap fun n => '\n' :: indent ++ ", ".toList ++ n.toList := by
  induction ns generalizing T with
  | nil => exact h
  | cons n ns ih =>
    obtain ⟨_, T₂, ⟨_, _, ⟨_, _, rfl, rfl, rfl⟩, rfl, rfl⟩, h₂, rfl⟩ := h
    rw [Bool.true_or] at h₂
    simp [ih h₂]

/-- A wrapped import marks the page with its first word, so each of its `freshLine`s ends a
line. -/
theorem eq_of_writes_wrapped {ns : List String} {path : String} {written : Bool} {T : List Char}
    (h : ("import \x7b " ++ firstName ns ++ Doc.indented "       "
      (importLines ns.tail ++ Doc.freshLine ++ "\x7d from " ++ path ++ ";") : Doc).Writes
        [] written T) :
    T = (wrappedImport ns path).toList := by
  obtain ⟨_, _, ⟨_, T₁, rfl, hfirst, rfl⟩, ⟨_, _, ⟨_, _, ⟨_, _, ⟨T₂, _, hlines, hline, rfl⟩, rfl,
    rfl⟩, rfl, rfl⟩, rfl, rfl⟩, rfl⟩ := h
  -- the first word has been written before any of the fresh lines
  have hmarked : (written || !("import \x7b ".toList ++ T₁).isEmpty) = true := by simp
  rw [hmarked] at hlines hline
  rw [Bool.true_or] at hline
  obtain rfl := hline
  rw [eq_of_writes_importLines hlines]
  cases ns with
  | nil =>
    obtain rfl : T₁ = [] := hfirst
    simp [wrappedImport]
  | cons n ns =>
    obtain rfl : T₁ = n.toList := hfirst
    simp only [wrappedImport, String.toList_append, toList_intercalate_cons]
    simp

end Print

/-! ## What a page takes -/

namespace Doc

/-- A document without a fault adds one of the texts that it `Writes`, to the end. -/
theorem Stops.exists_adds {doc : Doc} (h : doc.Stops none) {e : Emitter}
    (he : e.sink.limit = none) :
    ∃ T, doc.Writes e.indent.toList e.written T ∧ doc.Adds e T none := by
  obtain ⟨T, stopped, hadds⟩ := doc.exists_adds he
  obtain ⟨T', hwrites, hwrote⟩ := exists_wrote he (h.run he)
  obtain rfl : T = T' := hadds.wrote.unique hwrote
  obtain rfl : stopped = none := hadds.stopped.symm.trans (h.run he)
  exact ⟨T, hwrites, hadds⟩

end Doc

namespace Emitter

section Holds

variable {start T : String} {e : Emitter}

/-- On a page that `Holds` a text a fresh line begins at the first column. -/
theorem Holds.column_freshLine (h : e.Holds start T) :
    (Doc.freshLine.run e).1.position.column = 1 := by
  rw [Doc.column_freshLine h.limit h.indent]
  cases hwritten : e.written with
  | true => rfl
  | false =>
    obtain rfl : T = "" := by simpa [h.written] using hwritten
    rw [h.position]
    rfl

/-- A page takes an import of names on a line of its own, in the form that `importText` gives. -/
theorem Holds.adds_importLine (h : e.Holds start T) (ns : List String) (path : String) :
    (Print.importLine (.names ns path)).Adds e
      ((if e.written then ['\n'] else []) ++ (Print.importText ns path).toList) none := by
  have hfresh := Doc.adds_freshLine h.limit
  rw [h.indent, String.toList_empty, List.append_nil] at hfresh
  refine hfresh.append ?_
  have hlimit := hfresh.wrote.limit
  have hindent := hfresh.wrote.indent.trans h.indent
  have hcolumn := h.column_freshLine
  generalize (Doc.freshLine.run e).1 = e' at hlimit hindent hcolumn
  -- from the first column, what passes the width is what is longer than it
  have hpasses : e'.passes Print.importWidth (Print.inlineImport ns path) =
      decide (72 < (Print.inlineImport ns path).length) := by
    rw [passes, hcolumn, Nat.add_sub_cancel_left]
    rfl
  show (Doc.within Print.importWidth (Print.inlineImport ns path) _).Adds e' _ none
  unfold Print.importText
  split
  next hwidth =>
    exact (Doc.adds_text hlimit _).of_run_eq (by simp [Doc.run, hpasses, Nat.not_lt.2 hwidth])
  next hwidth =>
    obtain ⟨_, _, -, ⟨hstops, -⟩, -⟩ := Print.stops_importLine (.names ns path)
    obtain ⟨T', hwrites, hadds⟩ := hstops.exists_adds hlimit
    rw [hindent] at hwrites
    rw [← Print.eq_of_writes_wrapped hwrites]
    exact hadds.of_run_eq (by simp [Doc.run, hpasses, Nat.not_le.1 hwidth])

end Holds

end Emitter

/-! ## The place of an import -/

namespace Program

/-- The part of a program before one of its `imports`. -/
def upTo (p : Program) (imports : List Import) : Program :=
  { p with imports, body := [], trailer := "" }

variable {p : Program} {imports further : List Import} {i : Import}

theorem items_upTo (p : Program) (imports : List Import) :
    (p.upTo imports).items = p.leading.map .comment ++ p.moduleName.toList.map .moduleName
      ++ imports.map .imported := by
  simp [items, upTo]

/-- An import is an item of its own, after those of the part before it. -/
theorem exists_items_of_imports (h : p.imports = imports ++ i :: further) :
    ∃ rest, p.items = (p.upTo imports).items ++ .imported i :: rest := by
  rw [items_upTo, items, h]
  simp only [List.map_append, List.map_cons, List.append_assoc, List.cons_append]
  exact ⟨_, rfl⟩

/-- No fault comes before the end of the imports, so `upTo` is always printed. -/
theorem stops_items_upTo (d : Dialect) (p : Program) (imports : List Import) :
    (Doc.concat ((p.upTo imports).items.map (Item.doc d.surface))).Stops none := by
  refine Doc.stops_concat fun doc hdoc => ?_
  obtain ⟨i, hi, rfl⟩ := List.mem_map.1 hdoc
  rw [items_upTo, List.mem_append, List.mem_append] at hi
  rcases hi with (hi | hi) | hi
  all_goals
    obtain ⟨_, -, rfl⟩ := List.mem_map.1 hi
    simp [Item.doc]

end Program

namespace Item

theorem exists_lead (i : Item) : ∃ more, i.lead.toList = '\n' :: more := by
  unfold lead
  split <;> exact ⟨_, rfl⟩

/-- What comes next on a page that has been written on begins with a line feed, be it an `Item`
or the end. -/
theorem exists_adds_next (d : Dialect) (items : List Item) {e : Emitter}
    (hlimit : e.sink.limit = none) (hindent : e.indent = "") (hwritten : e.written = true) :
    ∃ T stopped, (Doc.concat (items.map (Item.doc d.surface)) ++ Doc.lineFeed).Adds e
      ('\n' :: T) stopped := by
  cases items with
  | nil =>
    have hfeed := Doc.adds_lineFeed hlimit
    rw [hwritten] at hfeed
    exact ⟨[], none, hfeed.of_run_eq (Doc.Same.empty_append _ e hlimit)⟩
  | cons i items =>
    -- an item opens a used page with its lead, which begins with a line feed
    have hpages : FreshAndUsed (ofSink .unlimited) e :=
      ⟨⟨rfl, hlimit, rfl, hindent⟩, rfl, hwritten, rfl⟩
    obtain ⟨T, stopped, -, hi⟩ := i.opens d _ _ hpages
    obtain ⟨more, hmore⟩ := i.exists_lead
    rw [hmore, List.cons_append] at hi
    have hsame := Doc.Same.append_assoc (i.doc d.surface)
      (Doc.concat (items.map (Item.doc d.surface))) Doc.lineFeed e hlimit
    cases stopped with
    | some err => exact ⟨_, _, (hi.append_of_some _).of_run_eq hsame⟩
    | none =>
      obtain ⟨T', stopped, hrest⟩ := Doc.exists_adds
        (Doc.concat (items.map (Item.doc d.surface)) ++ Doc.lineFeed) hi.wrote.limit
      exact ⟨_, _, (hi.append hrest).of_run_eq hsame⟩

end Item

namespace Emitter

/-- A program has one of its imports right after the part before it, `upTo`, and then a new
line. -/
theorem Holds.exists_writeProgram {start T : String} {e : Emitter} (h : e.Holds start T)
    (d : Dialect) {p : Program} {imports further : List Import} {ns : List String} {path : String}
    (himports : p.imports = imports ++ .names ns path :: further) :
    ∃ after, (e.writeProgram d p).1.sink.text =
      (e.writeProgram d (p.upTo imports)).1.sink.text ++ Print.importText ns path ++ "\n"
        ++ after := by
  obtain ⟨items, hitems⟩ := Program.exists_items_of_imports himports
  obtain ⟨T₁, -, hhead⟩ := (Program.stops_items_upTo d p imports).exists_adds h.limit
  have hpage := h.of_adds hhead
  -- the last line feed of the part before the import is the one that the import begins with
  have hfeed := Doc.adds_lineFeed hpage.limit
  have himport := hpage.adds_importLine ns path
  have hwritten : ((Print.importLine (.names ns path)).run
      ((Doc.concat ((p.upTo imports).items.map (Item.doc d.surface))).run e).1).1.written
        = true := by
    rw [himport.wrote.written]
    simp [Print.importText_ne_empty]
  obtain ⟨T₂, stopped, hnext⟩ := Item.exists_adds_next d items himport.wrote.limit
    (himport.wrote.indent.trans hpage.indent) hwritten
  have hsame : (p.doc d.surface).Same
      (Doc.concat ((p.upTo imports).items.map (Item.doc d.surface)) ++
        (Print.importLine (.names ns path) ++
          (Doc.concat (items.map (Item.doc d.surface)) ++ Doc.lineFeed))) := by
    refine (p.doc_same d.surface).trans ?_
    rw [hitems, List.map_append]
    refine ((Doc.Same.concat_append _ _).append (.refl _)).trans ?_
    refine (Doc.Same.append_assoc _ _ _).trans ?_
    exact (Doc.Same.refl _).append (Doc.Same.append_assoc _ _ _)
  refine ⟨.ofList T₂, ?_⟩
  simp only [writeProgram]
  rw [hsame e h.limit, (p.upTo imports).doc_same d.surface e h.limit,
    (hhead.append (himport.append hnext)).wrote.sink, (hhead.append hfeed).wrote.sink]
  simp [← String.toList_inj]

/-- **A page knows what is on it**: after any jobs, done or stopped, on a sink that takes
everything, nothing is indented, something has been written exactly if there is a text, and the line
and the column are those of the end of that text. Both are at most one more than its length, and so
fit into 32 bits if it has fewer than `2 ^ 32 - 1` characters. An import of names in a program that
is printed next stands on one line exactly if it has at most 72 characters there, whatever comes
before it. -/
theorem bookkeeping_exact (d : Dialect) (start : String) (js : List Job) :
    ∃ (e : Emitter) (T : String),
      (ofSink ⟨start, none⟩).afterJobs d js = e ∧
      e.sink = ⟨start ++ T, none⟩ ∧
      e.indent = "" ∧
      (e.written = true ↔ T ≠ "") ∧
      e.position.line = 1 + T.toList.count '\n' ∧
      e.position.column = 1 + (T.toList.rtakeWhile (· ≠ '\n')).length ∧
      e.position.line ≤ T.length + 1 ∧ e.position.column ≤ T.length + 1 ∧
      ∀ (p : Program) (imports further : List Import) (ns : List String) (path : String),
        p.imports = imports ++ .names ns path :: further →
          (∃ after, (e.writeProgram d p).1.sink.text =
            (e.writeProgram d (p.upTo imports)).1.sink.text ++ Print.importText ns path ++ "\n"
              ++ after) ∧
          (((e.writeProgram d (p.upTo imports)).1.sink.text ++ Print.inlineImport ns path).toList
              <+: (e.writeProgram d p).1.sink.text.toList ↔
            (Print.inlineImport ns path).length ≤ 72) := by
  obtain ⟨T, hpage⟩ := (holds_ofSink start).afterJobs d js
  generalize (ofSink ⟨start, none⟩).afterJobs d js = e at hpage
  have hline : e.position.line = 1 + T.toList.count '\n' := by
    rw [hpage.position, Position.line_advance]
    rfl
  have hcolumn : e.position.column = 1 + (T.toList.rtakeWhile (· ≠ '\n')).length := by
    rw [hpage.position, Position.column_start_advance]
  -- neither the line feeds nor the last line are more than the text
  have hfeeds : T.toList.count '\n' ≤ T.length := T.length_toList ▸ List.count_le_length
  have hlast : (T.toList.rtakeWhile (· ≠ '\n')).length ≤ T.length :=
    T.length_toList ▸ (List.rtakeWhile_suffix _ _).length_le
  refine ⟨e, T, rfl, hpage.sink, hpage.indent, ?_, hline, hcolumn, by omega, by omega, ?_⟩
  · simp [hpage.written]
  intro p imports further ns path himports
  -- an import begins at the first column, so its own length decides
  obtain ⟨after, hafter⟩ := hpage.exists_writeProgram d himports
  refine ⟨⟨after, hafter⟩, ?_⟩
  rw [hafter]
  simp only [String.toList_append, List.append_assoc, List.prefix_append_right_inj]
  unfold Print.importText
  split
  next hwidth => exact iff_of_true (List.prefix_append _ _) hwidth
  next hwidth => exact iff_of_false (Print.not_inlineImport_wrapped ns path _) hwidth

/-- An expression that stops half way, and then an import as wide as a line can be and one that is
wider. -/
theorem bookkeeping_exact_width :
    let broken : Expr := .binary .add (.symbol "a") (.call (.symbol "f") (.symbol "x"))
    let path := "'./a/path/that/is/rather/long/for/an/import.mjs'"
    let p : Program :=
      { leading := [⟨.line, "// c"⟩], moduleName := none
        imports := [.names ["a", "bcd"] path, .names ["a", "bcde"] path]
        body := [], trailer := "" }
    let e := (ofSink ⟨"", none⟩).afterJobs .brace [.expr broken]
    p.imports = [.names ["a", "bcd"] path] ++ .names ["a", "bcde"] path :: [] ∧
      e.sink.text = "a + " ∧ e.position.column = 5 ∧
      (e.writeProgram .brace (p.upTo [.names ["a", "bcd"] path])).1.sink.text =
        "a + \n// c\n" ++ Print.inlineImport ["a", "bcd"] path ++ "\n" ∧
      ∃ after, (e.writeProgram .brace p).1.sink.text =
        "a + \n// c\n" ++ Print.inlineImport ["a", "bcd"] path ++ "\n"
          ++ Print.wrappedImport ["a", "bcde"] path ++ "\n" ++ after := by
  intro broken path p e
  have hbefore : (e.writeProgram .brace (p.upTo [.names ["a", "bcd"] path])).1.sink.text =
      "a + \n// c\n" ++ Print.inlineImport ["a", "bcd"] path ++ "\n" := by decide +kernel
  have hwide : ¬(Print.inlineImport ["a", "bcde"] path).length ≤ 72 := by decide +kernel
  obtain ⟨_, T, rfl, -, -, -, -, -, -, -, h⟩ := bookkeeping_exact .brace "" [.expr broken]
  obtain ⟨⟨after, hafter⟩, -⟩ := h p [.names ["a", "bcd"] path] [] ["a", "bcde"] path rfl
  refine ⟨rfl, by decide +kernel, by decide +kernel, hbefore, after, ?_⟩
  rw [hafter, hbefore, Print.importText, if_neg hwide]

end Emitter

end Diglot

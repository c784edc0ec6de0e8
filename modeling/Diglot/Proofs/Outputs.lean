import Diglot.ExpectedOutput
import Diglot.Proofs.Trailer
import Mathlib.Data.List.DropRight

/-!
# Expected and printed output

A program says in its trailer what it should print, line by line. The trailer is found by the lexer,
taken apart line by line, and brought to the form in which outputs are compared; what was printed is
brought to the same form by itself. Both come to the same if the lines are the same, whatever they
hold: what the lexer takes for the end of a line ends it for the other two as well, and what follows
the two slashes of a line is trimmed like the line itself.

- `Text.trim_trim`: trimming once is enough.
- `Text.IsLine`, `Text.lines_joinLines`: the lines of lines that were put together.
- `normalizeOutput_normalizeOutput`: the form of outputs is not changed by bringing it to that form.
- `expecting`, `cut_expecting`: the trailer that expects some lines.
- `expectedOutput_expecting`: expected and printed lines come to the same.
-/

namespace Diglot

open Lexeme

namespace Text

/-! ## Trimming -/

theorem trimStart_cons_of_isBlank {c : Char} (h : isBlank c = true) (cs : List Char) :
    trimStart (c :: cs) = trimStart cs := by
  rw [trimStart, List.dropWhile_cons_of_pos h]
  rfl

theorem trimStart_cons_of_not_isBlank {c : Char} (h : isBlank c = false) (cs : List Char) :
    trimStart (c :: cs) = c :: cs := by
  rw [trimStart, List.dropWhile_cons_of_neg (by simp [h])]

/-- Trimming the end leaves the beginning as it is. -/
theorem isPrefix_trimEnd (cs : List Char) : trimEnd cs <+: cs :=
  List.rdropWhile_prefix isBlank cs

theorem mem_of_mem_trim {c : Char} {cs : List Char} (h : c ∈ trim cs) : c ∈ cs :=
  List.dropWhile_subset _ ((isPrefix_trimEnd _).subset h)

/-- A text that `trim` has trimmed does not end with a blank. -/
theorem getLast?_trim {c : Char} {cs : List Char} (h : (trim cs).getLast? = some c) :
    isBlank c = false := by
  have hne : (trimStart cs).rdropWhile isBlank ≠ [] := by
    intro hnil
    have hnil : trim cs = [] := hnil
    simp [hnil] at h
  have hlast := List.rdropWhile_last_not isBlank (trimStart cs) hne
  obtain rfl : _ = c := Option.some.inj ((List.getLast?_eq_some_getLast hne).symm.trans h)
  simpa using hlast

/-- A text that `trim` has trimmed does not begin with a blank either. -/
theorem trimStart_trim (cs : List Char) : trimStart (trim cs) = trim cs := by
  cases htrim : trim cs with
  | nil => rfl
  | cons c tail =>
    -- the first character is that of the text whose end was trimmed
    obtain ⟨rest, hrest⟩ := isPrefix_trimEnd (trimStart cs)
    have hhead : (trimStart cs).head? = some c := by
      rw [← hrest, show trimEnd (trimStart cs) = c :: tail from htrim]
      rfl
    exact trimStart_cons_of_not_isBlank (head?_trimStart cs c hhead) tail

/-- Trimming once is enough: `trim` changes nothing the second time. -/
theorem trim_trim (cs : List Char) : trim (trim cs) = trim cs := by
  rw [trim, trimStart_trim]
  exact List.rdropWhile_idempotent isBlank (trimStart cs)

/-! ## Lines -/

/-- A text that is one line, and stays one if a line feed follows it: `lines` takes a carriage
return before a line feed off. -/
structure IsLine (l : List Char) : Prop where
  feed : '\n' ∉ l
  last : l.getLast? ≠ some '\r'

theorem isLine_of_isBreak {l : List Char} (h : ∀ c ∈ l, isBreak c = false) : IsLine l where
  feed := fun hmem => absurd (h _ hmem) (by decide)
  last := fun hlast => absurd (h _ (List.mem_of_mem_getLast? hlast)) (by decide)

theorem IsLine.tail {c : Char} {l : List Char} (h : IsLine (c :: l)) (hne : l ≠ []) :
    IsLine l where
  feed := fun hmem => h.feed (List.mem_cons_of_mem c hmem)
  last := by
    obtain ⟨e, tail, rfl⟩ := List.exists_cons_of_ne_nil hne
    simpa [List.getLast?_cons_cons] using h.last

/-- A character that ends no line belongs to the first one of `lines`. -/
theorem lines_cons_of_ne {c : Char} {cs : List Char} (hc : c ≠ '\n')
    (hreturn : c = '\r' → cs.head? ≠ some '\n') :
    lines (c :: cs) = (c :: (lines cs).headD []) :: (lines cs).tail := by
  rw [lines]
  · cases lines cs <;> rfl
  · rintro tail rfl rfl
    exact hreturn rfl rfl
  · exact hc

/-- What comes before a line feed, if it `IsLine`, is the first line. -/
theorem lines_append {l : List Char} (h : IsLine l) (rest : List Char) :
    lines (l ++ '\n' :: rest) = l :: lines rest := by
  induction l with
  | nil => rfl
  | cons c l ih =>
    have hc : c ≠ '\n' := fun heq => h.feed (heq ▸ List.mem_cons_self)
    rw [List.cons_append, lines_cons_of_ne hc]
    · by_cases hnil : l = []
      · rw [hnil]
        rfl
      · rw [ih (h.tail hnil)]
        rfl
    · rintro rfl hhead
      cases l with
      | nil => exact h.last rfl
      | cons e l => exact h.feed (by simp_all)

theorem lines_of_newline_not_mem {l : List Char} (h : '\n' ∉ l) (hne : l ≠ []) : lines l = [l] := by
  induction l with
  | nil => exact absurd rfl hne
  | cons c l ih =>
    have hc : c ≠ '\n' := fun heq => h (heq ▸ List.mem_cons_self)
    have hl : '\n' ∉ l := fun hmem => h (List.mem_cons_of_mem c hmem)
    rw [lines_cons_of_ne hc fun _ hhead => hl (List.mem_of_mem_head? hhead)]
    by_cases hnil : l = []
    · rw [hnil]
      rfl
    · rw [ih hl hnil]
      rfl

/-- No line that `lines` gives holds a line feed. -/
theorem newline_not_mem_of_mem_lines {cs l : List Char} (h : l ∈ lines cs) : '\n' ∉ l := by
  fun_induction lines cs generalizing l with
  | case1 => simp at h
  | case2 cs ih => grind
  | case3 cs ih => grind
  | case4 c cs _ hc hnil ih => grind
  | case5 c cs _ hc line rest hlines ih => grind

end Text

open Text

theorem toList_joinLines_cons (l l' : List Char) (ls : List (List Char)) :
    (joinLines (l :: l' :: ls)).toList = l ++ '\n' :: (joinLines (l' :: ls)).toList := by
  simp only [joinLines, List.map_cons]
  rw [String.intercalate_cons_cons]
  simp

/-- Lines that `joinLines` puts together are found again, except for an empty one at the end. -/
theorem Text.lines_joinLines {ls : List (List Char)} (h : ∀ l ∈ ls, IsLine l) :
    lines (joinLines ls).toList = ls ∨ lines (joinLines ls).toList ++ [[]] = ls := by
  induction ls with
  | nil => exact .inl rfl
  | cons l ls ih =>
    rw [List.forall_mem_cons] at h
    cases ls with
    | nil =>
      have hjoin : (joinLines [l]).toList = l := by simp [joinLines]
      rw [hjoin]
      by_cases hnil : l = []
      · exact .inr (by rw [hnil]; rfl)
      · exact .inl (lines_of_newline_not_mem h.1.feed hnil)
    | cons l' ls =>
      rw [toList_joinLines_cons, lines_append h.1]
      exact (ih h.2).imp (congrArg (l :: ·)) (congrArg (l :: ·))

/-! ## The form of outputs -/

/-- What `normalizeLines` keeps is a line that is not empty once it is trimmed. -/
theorem mem_normalizeLines {l : List Char} {ls : List (List Char)} (h : l ∈ normalizeLines ls) :
    l ≠ [] ∧ ∃ l₀ ∈ ls, l = trim l₀ := by
  obtain ⟨hmem, hne⟩ := List.mem_filter.1 h
  obtain ⟨l₀, hl₀, rfl⟩ := List.mem_map.1 hmem
  exact ⟨by simpa using hne, l₀, hl₀, rfl⟩

/-- Lines in the form of outputs are not changed by `normalizeLines`. -/
theorem normalizeLines_normalizeLines (ls : List (List Char)) :
    normalizeLines (normalizeLines ls) = normalizeLines ls := by
  have hmap : (normalizeLines ls).map trim = normalizeLines ls := by
    refine (List.map_congr_left fun l hl => ?_).trans (List.map_id _)
    obtain ⟨-, l₀, -, rfl⟩ := mem_normalizeLines hl
    exact trim_trim l₀
  rw [normalizeLines, hmap, List.filter_eq_self]
  intro l hl
  simpa using (mem_normalizeLines hl).1

/-- An empty line at the end, which `lines_joinLines` allows for, leaves no trace. -/
theorem normalizeLines_lines_joinLines {ls : List (List Char)} (h : ∀ l ∈ ls, IsLine l) :
    normalizeLines (lines (joinLines ls).toList) = normalizeLines ls := by
  obtain heq | heq := lines_joinLines h
  · rw [heq]
  · have hempty : normalizeLines [[]] = [] := rfl
    conv_rhs => rw [← heq]
    rw [normalizeLines, normalizeLines, List.map_append, List.filter_append]
    rw [normalizeLines] at hempty
    rw [hempty, List.append_nil]

/-- Trimmed lines are `IsLine`, so they are lines also when they are put together. -/
theorem isLine_of_mem_normalizeLines {l cs : List Char} (h : l ∈ normalizeLines (lines cs)) :
    IsLine l := by
  obtain ⟨-, l₀, hl₀, rfl⟩ := mem_normalizeLines h
  exact ⟨fun hmem => newline_not_mem_of_mem_lines hl₀ (mem_of_mem_trim hmem),
    fun hlast => absurd (getLast?_trim hlast) (by decide)⟩

/-- The form of outputs is not changed by bringing it to that form: `normalizeOutput` is
idempotent. -/
theorem normalizeOutput_normalizeOutput (printed : String) :
    normalizeOutput (normalizeOutput printed) = normalizeOutput printed := by
  rw [normalizeOutput, normalizeOutput,
    normalizeLines_lines_joinLines fun l hl => isLine_of_mem_normalizeLines hl,
    normalizeLines_normalizeLines]

/-! ## Trailers -/

/-- The trailer that expects some lines, as it is written. `expecting_eq_joined` has it as
comments. -/
def expecting (ls : List String) : String :=
  "// OUTPUT:" ++ String.join (ls.map fun l => "\n// " ++ l)

/-- The lines of a trailer after its first one, as comments. -/
def expectedComments (ls : List String) : List Comment :=
  ls.map fun l => ⟨.line, "// " ++ l⟩

/-- The first line of a trailer, as a comment. -/
def markerComment : Comment :=
  ⟨.line, "// OUTPUT:"⟩

variable {ls : List String}

theorem expecting_eq_joined (ls : List String) :
    expecting ls = Comment.joined (markerComment :: expectedComments ls) := by
  rw [← String.toList_inj, Comment.toList_joined, expecting, String.toList_append]
  congr 1
  simp [expectedComments, Comment.lines, String.toList_join, List.flatMap_map]

/-- The lines of a trailer are comments up to the end of their lines. -/
theorem genuine_comments (d : Dialect)
    (h : ∀ l ∈ ls, ∀ c ∈ l.toList, isBreak c = false) :
    ∀ c ∈ markerComment :: expectedComments ls, c.Genuine d := by
  rw [List.forall_mem_cons]
  refine ⟨⟨by decide, forall_mem_of_all (by decide)⟩, ?_⟩
  intro c hc
  obtain ⟨l, hl, rfl⟩ := List.mem_map.1 hc
  refine ⟨by simp [startsWith], fun c hc => ?_⟩
  rw [String.toList_append, List.mem_append] at hc
  obtain hc | hc := hc
  · exact forall_mem_of_all (P := fun c => isBreak c = false) (by decide) c hc
  · exact h l hl c hc

/-- The lexer finds all lines of the trailer, and nothing else: `cut` leaves a tape without
tokens. -/
theorem cut_expecting (d : Dialect) (h : ∀ l ∈ ls, ∀ c ∈ l.toList, isBreak c = false) :
    cut d (expecting ls ++ "\n").toList =
      { tape := [.token .eof ""], trailer := some (expecting ls) } := by
  have hgenuine := genuine_comments d h
  have hmarked : (markerComment.isMarked && (expectedComments ls).all Comment.isLine) = true := by
    rw [Bool.and_eq_true, List.all_eq_true]
    refine ⟨by decide, fun c hc => ?_⟩
    obtain ⟨l, -, rfl⟩ := List.mem_map.1 hc
    rfl
  have hne := Comment.joined_ne_empty (hgenuine _ List.mem_cons_self) (expectedComments ls)
  have hcut := cut_lines hgenuine
  rw [lines_cons, cut_newline, Comment.trailing, Comment.remaining, if_pos hmarked,
    if_pos hmarked, nonempty?, if_neg hne] at hcut
  rw [expecting_eq_joined, String.toList_append, Comment.toList_joined, List.append_assoc]
  exact hcut

/-- A file that is a trailer alone is read as one by `parseText`. -/
theorem parseText_expecting (d : Dialect) (file : String)
    (h : ∀ l ∈ ls, ∀ c ∈ l.toList, isBreak c = false) :
    parseText d file (expecting ls ++ "\n") =
      .ok (some { Program.empty with trailer := expecting ls }) := by
  refine parseText_of_reads file ?_
  rw [cut_expecting d h]
  exact .mk (fun hblank => absurd hblank.2.2 (by simp)) (.none (by simp [Tape.kind]))
    (.kept (by simp [Tape.kind])) (.importsNone (by simp [Tape.kind]))
    (.declarationsEnd (by cases d <;> rfl)) rfl

/-! ## The lines of a trailer -/

/-- `uncomment` takes the slashes off and trims what is left, the blank after the slashes
included. -/
theorem uncomment_expected (l : List Char) : uncomment ('/' :: '/' :: ' ' :: l) = trim l := by
  have hslash : trimStart ('/' :: '/' :: ' ' :: l) = '/' :: '/' :: ' ' :: l :=
    trimStart_cons_of_not_isBlank (by decide) _
  have hspace : trimStart (' ' :: l) = trimStart l := trimStart_cons_of_isBlank (by decide) l
  simp only [uncomment, hslash]
  show trim (' ' :: l) = trim l
  rw [trim, hspace, trim]

/-- The lines of `expecting` are those it was put together from, after the one with the marker. -/
theorem lines_expecting (h : ∀ l ∈ ls, ∀ c ∈ l.toList, isBreak c = false) :
    lines (expecting ls).toList =
      "// OUTPUT:".toList :: ls.map fun l => '/' :: '/' :: ' ' :: l.toList := by
  have hcomments : (markerComment :: expectedComments ls).map (·.text.toList) =
      "// OUTPUT:".toList :: ls.map fun l => '/' :: '/' :: ' ' :: l.toList := by
    simp [markerComment, expectedComments]
  have hjoin : expecting ls =
      joinLines ((markerComment :: expectedComments ls).map (·.text.toList)) := by
    rw [expecting_eq_joined, Comment.joined, joinLines, List.map_map]
    exact congrArg _ (List.map_congr_left fun c _ => String.ofList_toList.symm)
  have hline : ∀ l ∈ (markerComment :: expectedComments ls).map (·.text.toList),
      l ≠ [] ∧ IsLine l := by
    intro l hl
    obtain ⟨c, hc, rfl⟩ := List.mem_map.1 hl
    have hgenuine := genuine_comments .brace h c hc
    refine ⟨hgenuine.ne_nil, isLine_of_isBreak ?_⟩
    obtain rfl | hc := List.mem_cons.1 hc
    · exact hgenuine.2
    · obtain ⟨l, -, rfl⟩ := List.mem_map.1 hc
      exact hgenuine.2
  rw [hjoin, ← hcomments]
  obtain heq | heq := lines_joinLines fun l hl => (hline l hl).2
  · exact heq
  · -- no line of a trailer is empty, so the last one is not left out
    exact absurd rfl (hline [] (heq ▸ List.mem_append_right _ (List.mem_singleton_self _))).1

/-- What a trailer expects, `expectedOutput`, are its lines in the form of `normalizeOutput`. -/
theorem expectedOutput_expecting (h : ∀ l ∈ ls, ∀ c ∈ l.toList, isBreak c = false) :
    expectedOutput (expecting ls) = normalizeOutput ("\n".intercalate ls) := by
  have hprinted : "\n".intercalate ls = joinLines (ls.map String.toList) := by
    simp [joinLines]
  have hline : ∀ l ∈ ls.map String.toList, IsLine l := by
    intro l hl
    obtain ⟨line, hline, rfl⟩ := List.mem_map.1 hl
    exact isLine_of_isBreak (h line hline)
  have hlines : ("// OUTPUT:".toList :: ls.map fun l => '/' :: '/' :: ' ' :: l.toList).map uncomment
      = "OUTPUT:".toList :: (ls.map String.toList).map trim := by
    have hmarker : uncomment "// OUTPUT:".toList = "OUTPUT:".toList := by decide
    rw [List.map_cons, hmarker, List.map_map, List.map_map]
    exact congrArg _ (List.map_congr_left fun l _ => uncomment_expected l.toList)
  have hdrop : dropMarker (("OUTPUT:".toList :: (ls.map String.toList).map trim).dropWhile
      List.isEmpty) = (ls.map String.toList).map trim := rfl
  have htrim : normalizeLines ((ls.map String.toList).map trim) =
      normalizeLines (ls.map String.toList) := by
    rw [normalizeLines, List.map_map, show trim ∘ trim = trim from funext trim_trim]
    rfl
  simp only [expectedOutput, lines_expecting h, hlines, hdrop, htrim]
  rw [hprinted, normalizeOutput, normalizeLines_lines_joinLines hline]

/-- **Expected and printed output are compared alike**: let some lines hold no line feed and no
carriage return. In either dialect a file that is the trailer which expects them is read as a
program with this trailer and nothing else, and what the trailer expects is what the lines come to
when they are printed. The form in which outputs are compared is not changed by bringing it to that
form once more. -/
theorem expected_eq_printed (d : Dialect) (file : String)
    (h : ∀ l ∈ ls, '\n' ∉ l.toList ∧ '\r' ∉ l.toList) :
    parseText d file (expecting ls ++ "\n") = .ok (some
        { leading := [], moduleName := none, imports := [], body := [],
          trailer := expecting ls }) ∧
      expectedOutput (expecting ls) = normalizeOutput ("\n".intercalate ls) ∧
      ∀ printed, normalizeOutput (normalizeOutput printed) = normalizeOutput printed := by
  have hbreak : ∀ l ∈ ls, ∀ c ∈ l.toList, isBreak c = false := by
    intro l hl c hc
    have hreturn : c ≠ '\r' := fun heq => (h l hl).2 (heq ▸ hc)
    have hfeed : c ≠ '\n' := fun heq => (h l hl).1 (heq ▸ hc)
    simp [isBreak, hreturn, hfeed]
  exact ⟨parseText_expecting d file hbreak, expectedOutput_expecting hbreak,
    normalizeOutput_normalizeOutput⟩

/-- Blank lines, no-break spaces, slashes and the marker itself can be expected. -/
theorem expected_eq_printed_marker :
    (∀ l ∈ [" a", "", "\u00a0", "// OUTPUT: b"], '\n' ∉ l.toList ∧ '\r' ∉ l.toList) ∧
      expectedOutput "// OUTPUT:\n//  a\n// \n// \u00a0\n// // OUTPUT: b" = "a\n// OUTPUT: b" ∧
      parseText .block "f" "// OUTPUT:\n//  a\n// \n// \u00a0\n// // OUTPUT: b\n" = .ok (some
        { Program.empty with
          trailer := "// OUTPUT:\n//  a\n// \n// \u00a0\n// // OUTPUT: b" }) := by
  have hlines : ∀ l ∈ [" a", "", "\u00a0", "// OUTPUT: b"], '\n' ∉ l.toList ∧ '\r' ∉ l.toList := by
    decide
  have hresult := expected_eq_printed .block "f" hlines
  exact ⟨hlines, hresult.2.1, hresult.1⟩

end Diglot

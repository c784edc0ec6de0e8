import Diglot.Path
import Diglot.Proofs.Utf8
import Mathlib.Data.List.TakeWhile

/-!
# Names of compiled files

A compiled file goes beside its source, under the stem of the source and a double extension, or into
a directory, under the stem and a plain one. Either way its extension is the one of its dialect, and
in a directory two of them meet only if the stems of their sources are shown alike, which for stems
that are texts means that they are one stem. There are two exceptions to what the names are meant to
be. A source may have a name of two dots and an extension, with nothing after it: once its extension
is taken off, the two dots are left, which lead to the directory above, and there is no file to be
named. And two stems that are no texts may be shown alike, and are then compiled to one file.

- `Path.Same`: two spellings of one path.
- `Path.LeadsTo`: the segments of a path to a file with an extension.
- `Path.LeadsTo.withExtension_eq`: what another extension makes of such a path.
- `Path.exists_segments_join`: a name in a directory is the last segment of its path.
- `outputPath_named`: where a compiled file goes, and how its name is read.
-/

namespace Diglot

open Path in
/-- The extensions of sources are short words: no dot and no slash in them. What `ofExtension?`
knows is a finite list. -/
theorem Dialect.ofExtension?_plain {ext : String} (h : (Dialect.ofExtension? ext).isSome) :
    Text.bytes ext ≠ [] ∧ dot ∉ Text.bytes ext ∧ slash ∉ Text.bytes ext := by
  have hext : ext = "js" ∨ ext = "mjs" ∨ ext = "sjs" ∨ ext = "sp1" := by
    unfold Dialect.ofExtension? at h
    split at h <;> simp_all
  rcases hext with rfl | rfl | rfl | rfl <;> decide

open Path in
theorem Dialect.extension_plain (d : Dialect) : Text.bytes d.extension ≠ [] ∧
    dot ∉ Text.bytes d.extension ∧ slash ∉ Text.bytes d.extension :=
  ofExtension?_plain (by simp [ofExtension?_extension])

namespace Path

/-- Two spellings of one path. Slashes in a row count as one, those at the end do not count, and a
single dot counts only where a path begins with it. -/
structure Same (p q : Path) : Prop where
  root : isAbsolute p = isAbsolute q
  dot : (segments p.bytes).head? = some [dot] ↔ (segments q.bytes).head? = some [dot]
  names : (segments p.bytes).filter (!isFiller ·) = (segments q.bytes).filter (!isFiller ·)

/-- Equal paths are spellings of one path. -/
theorem Same.of_eq {p q : Path} (h : p = q) : Same p q := by
  subst h
  exact ⟨rfl, .rfl, rfl⟩

/-! ## Segments -/

section Segments

variable {a b cs s : Bytes} {before : List Bytes}

theorem segments_ne_nil (cs : Bytes) : segments cs ≠ [] := by
  fun_cases segments cs <;> simp_all

/-- A slash ends a segment: `segments` of two parts that it joins. -/
theorem segments_append (a b : Bytes) :
    segments (a ++ slash :: b) = segments a ++ segments b := by
  induction a with
  | nil => rfl
  | cons c a ih =>
    rw [List.cons_append, segments, segments, ih]
    split
    · rfl
    · cases h : segments a with
      | nil => exact absurd h (segments_ne_nil a)
      | cons s ss => rfl

theorem segments_of_not_mem (h : slash ∉ a) : segments a = [a] := by
  induction a with
  | nil => rfl
  | cons c a ih =>
    rw [List.mem_cons, not_or] at h
    rw [segments, if_neg (Ne.symm h.1), ih h.2]

/-- No segment holds a slash. -/
theorem slash_not_mem_of_mem_segments (h : s ∈ segments cs) : slash ∉ s := by
  induction cs generalizing s with
  | nil => simp_all [segments]
  | cons c cs ih =>
    rw [segments] at h
    split at h
    · rcases List.mem_cons.1 h with rfl | h
      · exact List.not_mem_nil
      · exact ih h
    next hc =>
    split at h
    · obtain rfl := List.mem_singleton.1 h
      simpa using Ne.symm hc
    · next t ts hcs =>
      rw [hcs] at ih
      rcases List.mem_cons.1 h with rfl | h
      · simpa [Ne.symm hc] using ih (List.mem_cons_self ..)
      · exact ih (List.mem_cons_of_mem _ h)

/-- The bytes of some segments, with a slash after each. -/
def leadBytes (before : List Bytes) : Bytes :=
  before.flatMap (· ++ [slash])

/-- The bytes of some segments, with a slash before each. -/
def tailBytes (after : List Bytes) : Bytes :=
  after.flatMap (slash :: ·)

/-- Segments with a slash after each are found again, before those of what follows. -/
theorem segments_leadBytes_append (h : ∀ s ∈ before, slash ∉ s) (b : Bytes) :
    segments (leadBytes before ++ b) = before ++ segments b := by
  induction before with
  | nil => rfl
  | cons s before ih =>
    rw [List.forall_mem_cons] at h
    have hsplit : leadBytes (s :: before) ++ b = s ++ slash :: (leadBytes before ++ b) := by
      simp [leadBytes]
    rw [hsplit, segments_append, segments_of_not_mem h.1, ih h.2]
    rfl

/-- Segments with a slash before each are found again, after the name that they follow. -/
theorem segments_append_tailBytes {name : Bytes} {after : List Bytes}
    (hname : slash ∉ name) (h : ∀ s ∈ after, slash ∉ s) :
    segments (name ++ tailBytes after) = name :: after := by
  induction after generalizing name with
  | nil => simpa [tailBytes] using segments_of_not_mem hname
  | cons s after ih =>
    rw [List.forall_mem_cons] at h
    have hsplit : name ++ tailBytes (s :: after) = name ++ slash :: (s ++ tailBytes after) := by
      simp [tailBytes]
    rw [hsplit, segments_append, segments_of_not_mem hname, ih h.1 h.2]
    rfl

/-- A path is the bytes of its `segments`. -/
theorem leadBytes_segments (cs : Bytes) : leadBytes (segments cs) = cs ++ [slash] := by
  induction cs with
  | nil => rfl
  | cons c cs ih =>
    rw [segments]
    split
    · next hc => simpa [leadBytes, hc] using ih
    · split
      · next h => exact absurd h (segments_ne_nil cs)
      · next s ss h =>
        rw [h] at ih
        simpa [leadBytes] using ih

theorem leadBytes_eq_tailBytes (after : List Bytes) :
    slash :: leadBytes after = tailBytes after ++ [slash] := by
  induction after with
  | nil => rfl
  | cons s after ih =>
    simp only [leadBytes, tailBytes, List.flatMap_cons, List.append_assoc, List.cons_append,
      List.nil_append] at ih ⊢
    rw [ih]

/-- A path from its segments, with one of them singled out. -/
theorem eq_of_segments {name : Bytes} {after : List Bytes}
    (h : segments cs = before ++ name :: after) :
    cs = leadBytes before ++ (name ++ tailBytes after) := by
  have htext := leadBytes_segments cs
  rw [h] at htext
  have hsplit : leadBytes (before ++ name :: after)
      = leadBytes before ++ (name ++ (slash :: leadBytes after)) := by
    simp [leadBytes]
  rw [hsplit, leadBytes_eq_tailBytes, ← List.append_assoc, ← List.append_assoc,
    List.append_left_inj, List.append_assoc] at htext
  exact htext.symm

/-- What is left of segments that are `isFiller` when some bytes at their end are dropped is
passed over as well. -/
theorem exists_take_tailBytes {after : List Bytes} (h : ∀ s ∈ after, isFiller s = true)
    (n : Nat) :
    ∃ kept, (tailBytes after).take n = tailBytes kept ∧ ∀ s ∈ kept, isFiller s = true := by
  induction after generalizing n with
  | nil => exact ⟨[], by simp [tailBytes], by simp⟩
  | cons s after ih =>
    rw [List.forall_mem_cons] at h
    cases n with
    | zero => exact ⟨[], by simp [tailBytes], by simp⟩
    | succ n =>
      -- a filler has at most one byte, so a cut falls before it, after its slash, or past it
      have hs : s = [] ∨ s = [dot] := by simpa [isFiller] using h.1
      rcases hs with rfl | rfl
      · obtain ⟨kept, hkept, hfiller⟩ := ih h.2 n
        refine ⟨[] :: kept, ?_, by simpa [isFiller] using hfiller⟩
        simpa [tailBytes] using hkept
      · cases n with
        | zero => exact ⟨[[]], by simp [tailBytes], by simp [isFiller]⟩
        | succ n =>
          obtain ⟨kept, hkept, hfiller⟩ := ih h.2 n
          refine ⟨[dot] :: kept, ?_, by simpa [isFiller] using hfiller⟩
          simpa [tailBytes] using hkept

theorem tailBytes_eq_nil_iff {after : List Bytes} : tailBytes after = [] ↔ after = [] := by
  cases after <;> simp [tailBytes]

theorem slash_not_mem_of_isFiller (h : isFiller s = true) : slash ∉ s := by
  have hs : s = [] ∨ s = [dot] := by simpa [isFiller] using h
  rcases hs with rfl | rfl <;> decide

end Segments

/-! ## Stems and extensions -/

section Stems

variable {name stem ext : Bytes}

theorem forall_ne_dot (h : dot ∉ ext) : ∀ c ∈ ext.reverse, decide (c ≠ dot) = true := by
  intro c hc
  rw [decide_eq_true_iff]
  rintro rfl
  exact h (List.mem_reverse.1 hc)

/-- A name is divided at its last dot, unless it begins with it: `splitName` looks for the dot
from the end. -/
theorem splitName_append (hext : dot ∉ ext) (stem : Bytes) :
    splitName (stem ++ dot :: ext) =
      if stem = [] then (dot :: ext, none) else (stem, some ext) := by
  -- the bytes after the last dot are the extension
  have hafter : ((stem ++ dot :: ext).reverse.takeWhile (· ≠ dot)).reverse = ext := by
    rw [List.reverse_append, List.reverse_cons, List.append_assoc,
      List.takeWhile_append_of_pos (forall_ne_dot hext)]
    simp
  have hbefore : (stem ++ dot :: ext).take ((stem ++ dot :: ext).length - ext.length - 1)
      = stem := by
    have hlength : (stem ++ dot :: ext).length - ext.length - 1 = stem.length := by
      simp only [List.length_append, List.length_cons]
      omega
    rw [hlength, List.take_left]
  have hne : ext.length ≠ (stem ++ dot :: ext).length := by
    simp only [List.length_append, List.length_cons]
    omega
  simp only [splitName, hafter, hbefore, hne, false_or]
  split
  · next hstem => rw [hstem, List.nil_append]
  · rfl

theorem splitName_of_not_mem (h : dot ∉ name) : splitName name = (name, none) := by
  simp only [splitName, List.takeWhile_eq_self_iff.2 (forall_ne_dot h), List.reverse_reverse,
    true_or, if_true]

/-- The two parts of a name that has an extension. The converse of `splitName_append`. -/
theorem eq_of_splitName (h : splitName name = (stem, some ext)) :
    name = stem ++ dot :: ext ∧ stem ≠ [] ∧ dot ∉ ext := by
  by_cases hdot : dot ∈ name.reverse
  · obtain ⟨back, rest, hback, hlast⟩ := List.eq_append_cons_of_mem hdot
    have hname : name = rest.reverse ++ dot :: back.reverse := by
      simpa using congrArg List.reverse hback
    have hlast' : dot ∉ back.reverse := by simpa using hlast
    rw [hname, splitName_append hlast'] at h
    split at h
    · cases (Prod.mk.inj h).2
    · next hstem =>
      obtain ⟨rfl, hext⟩ := Prod.mk.inj h
      obtain rfl := Option.some.inj hext
      exact ⟨hname, hstem, hlast'⟩
  · rw [splitName_of_not_mem (by simpa using hdot)] at h
    cases (Prod.mk.inj h).2

/-- Two dots are a dot with an empty extension. -/
theorem eq_of_append_dot_eq (hstem : stem ≠ []) (h : stem ++ dot :: ext = [dot, dot]) :
    stem = [dot] ∧ ext = [] := by
  cases stem with
  | nil => exact absurd rfl hstem
  | cons c stem =>
    cases stem with
    | nil => simpa using h
    | cons c' stem => simp at h

/-- A name with a stem and an extension is not passed over. -/
theorem isFiller_append_dot (hstem : stem ≠ []) (ext : Bytes) :
    isFiller (stem ++ dot :: ext) = false := by
  cases stem with
  | nil => exact absurd rfl hstem
  | cons c stem => simp [isFiller]

end Stems

/-! ## Paths to files -/

/-- The last segment of a path that is not `isFiller` names its file, unless it is two dots. -/
theorem split?_of_segments {path : Path} {before fillers : List Bytes} {name : Bytes}
    (h : segments path.bytes = before ++ name :: fillers)
    (hfillers : ∀ s ∈ fillers, isFiller s = true) (hname : isFiller name = false) :
    split? path = if name = [dot, dot] then none else some (leadBytes before, name) := by
  have hreverse : (segments path.bytes).reverse.dropWhile isFiller = name :: before.reverse := by
    rw [h, List.reverse_append, List.reverse_cons, List.append_assoc,
      List.dropWhile_append_of_pos (by simpa using hfillers), List.singleton_append,
      List.dropWhile_cons_of_neg (by simp [hname])]
  rw [split?, hreverse]
  simp only [List.reverse_reverse]
  rfl

/-- The segments of a path that names a file, as `split?` finds it. -/
theorem exists_segments_of_split? {path : Path} {lead name : Bytes}
    (h : split? path = some (lead, name)) :
    ∃ before fillers, segments path.bytes = before ++ name :: fillers ∧
      ∀ s ∈ fillers, isFiller s = true := by
  rw [split?] at h
  -- the path is looked at from its end, so the fillers come first
  have hsplit := List.takeWhile_append_dropWhile (p := isFiller)
    (l := (segments path.bytes).reverse)
  cases hdrop : (segments path.bytes).reverse.dropWhile isFiller with
  | nil => simp [hdrop] at h
  | cons last before =>
    obtain rfl : last = name := by
      simp only [hdrop] at h
      split at h
      · cases h
      · exact (Prod.mk.inj (Option.some.inj h)).2
    rw [hdrop] at hsplit
    refine ⟨before.reverse, ((segments path.bytes).reverse.takeWhile isFiller).reverse, ?_, ?_⟩
    · simpa using (congrArg List.reverse hsplit).symm
    · intro s hs
      exact List.all_eq_true.1 List.all_takeWhile s (List.mem_reverse.1 hs)

/-- The segments of a path to a file with an extension: those before the file, its stem and its
extension, and those after it, which `isFiller` passes over. -/
structure LeadsTo (path : Path) (before : List Bytes) (stem ext : Bytes)
    (fillers : List Bytes) : Prop where
  split : segments path.bytes = before ++ (stem ++ dot :: ext) :: fillers
  passed : ∀ s ∈ fillers, isFiller s = true
  stem_ne : stem ≠ []
  ext_ne : ext ≠ []
  ext_plain : dot ∉ ext

section LeadsTo

variable {path : Path} {before fillers : List Bytes} {stem ext : Bytes}

/-- The file of such a path is named by its stem and its extension; the lemmas below read off
the two. -/
theorem LeadsTo.split?_eq (h : LeadsTo path before stem ext fillers) :
    split? path = some (leadBytes before, stem ++ dot :: ext) := by
  have hparent : stem ++ dot :: ext ≠ [dot, dot] :=
    fun hdots => h.ext_ne (eq_of_append_dot_eq h.stem_ne hdots).2
  rw [split?_of_segments h.split h.passed (isFiller_append_dot h.stem_ne ext), if_neg hparent]

theorem LeadsTo.splitName_eq (h : LeadsTo path before stem ext fillers) :
    splitName (stem ++ dot :: ext) = (stem, some ext) := by
  rw [splitName_append h.ext_plain, if_neg h.stem_ne]

theorem LeadsTo.stem?_eq (h : LeadsTo path before stem ext fillers) :
    stem? path = some stem := by
  simp [stem?, h.split?_eq, h.splitName_eq]

theorem LeadsTo.extension?_eq (h : LeadsTo path before stem ext fillers) :
    extension? path = some ext := by
  simp [extension?, h.split?_eq, h.splitName_eq]

theorem LeadsTo.inputDialect?_eq {e : String}
    (h : LeadsTo path before stem (Text.bytes e) fillers) :
    inputDialect? path = Dialect.ofExtension? e := by
  have htext : Text.ofBytes? (Text.bytes e) = some e := Text.ofBytes?_eq_some_iff.2 rfl
  simp [inputDialect?, h.extension?_eq, htext]

/-- A file with a dialect has an extension that tells it: where `inputDialect?` answers, the
path `LeadsTo` a file. -/
theorem exists_leadsTo {k : Dialect} (h : inputDialect? path = some k) :
    ∃ before stem ext fillers, LeadsTo path before stem (Text.bytes ext) fillers ∧
      Dialect.ofExtension? ext = some k := by
  obtain ⟨ext, htext, hdialect⟩ := Option.bind_eq_some_iff.1 h
  obtain ⟨bytes, hextension, hbytes⟩ := Option.bind_eq_some_iff.1 htext
  obtain rfl := Text.ofBytes?_eq_some_iff.1 hbytes
  obtain ⟨⟨lead, name⟩, hsplit, hname⟩ := Option.bind_eq_some_iff.1 hextension
  obtain ⟨stem, hstem⟩ : ∃ stem, splitName name = (stem, some (Text.bytes ext)) :=
    ⟨_, Prod.ext rfl hname⟩
  obtain ⟨rfl, hne, hplain⟩ := eq_of_splitName hstem
  obtain ⟨before, fillers, hsegments, hfillers⟩ := exists_segments_of_split? hsplit
  have hsome := (Dialect.ofExtension?_plain (by rw [hdialect]; rfl)).1
  exact ⟨before, stem, ext, fillers, ⟨hsegments, hfillers, hne, hsome, hplain⟩, hdialect⟩

/-- The bytes of a path to a file, segment by segment. -/
theorem LeadsTo.bytes_eq (h : LeadsTo path before stem ext fillers) :
    path.bytes = leadBytes before ++ (stem ++ dot :: (ext ++ tailBytes fillers)) := by
  rw [eq_of_segments h.split, List.append_assoc, List.cons_append]

/-- A path without its extension ends in a dot, or in as many bytes after the dot as have been
passed over before: `withoutExtension` drops as many bytes as the extension has from the end of
the whole path. -/
theorem LeadsTo.bytes_withoutExtension (h : LeadsTo path before stem ext fillers) :
    (withoutExtension path).bytes = leadBytes before ++
      (stem ++ dot :: (ext ++ tailBytes fillers).take (tailBytes fillers).length) := by
  have hlength : path.bytes.length - ext.length
      = (leadBytes before ++ stem).length + ((tailBytes fillers).length + 1) := by
    rw [h.bytes_eq]
    simp only [List.length_append, List.length_cons]
    omega
  rw [withoutExtension, h.extension?_eq, Option.getD_some, hlength, h.bytes_eq,
    ← List.append_assoc, List.take_length_add_append, List.take_succ_cons, List.append_assoc]

theorem LeadsTo.slash_not_mem (h : LeadsTo path before stem ext fillers) :
    (∀ s ∈ before, slash ∉ s) ∧ slash ∉ stem ++ dot :: ext := by
  have hsegment : ∀ s ∈ before ++ (stem ++ dot :: ext) :: fillers, slash ∉ s := by
    intro s hs
    rw [← h.split] at hs
    exact slash_not_mem_of_mem_segments hs
  exact ⟨fun s hs => hsegment s (List.mem_append_left _ hs), hsegment _ (by simp)⟩

/-- Where two dots and an extension end a path, nothing but the dots is left of the name, and
there is no file for which `withExtension` could set another extension. -/
theorem LeadsTo.withExtension_dots (h : LeadsTo path before [dot] ext []) (e : Bytes) :
    withExtension path e = { bytes := leadBytes before ++ [dot, dot] } := by
  have htext : (withoutExtension path).bytes = leadBytes before ++ [dot, dot] := by
    rw [h.bytes_withoutExtension]
    rfl
  have hsegments : segments (withoutExtension path).bytes = before ++ [[dot, dot]] := by
    rw [htext, segments_leadBytes_append h.slash_not_mem.1]
    rfl
  rw [withExtension, setExtension, split?_of_segments hsegments (by simp) (by decide), if_pos rfl]
  exact congrArg Path.mk htext

/-- Any other file keeps its stem and gets the new extension. The fillers at the end of the path
are gone then. -/
theorem LeadsTo.withExtension_eq (h : LeadsTo path before stem ext fillers)
    (hdots : ¬(stem = [dot] ∧ fillers = [])) (e : Bytes) :
    withExtension path e = { bytes := leadBytes before ++ stem ++ dot :: e } := by
  obtain ⟨hbefore, hname⟩ := h.slash_not_mem
  have htext := h.bytes_withoutExtension
  -- it is enough to find the stem in front of what is left of the extension
  suffices hsplit : ∃ rest, split? (withoutExtension path)
      = some (leadBytes before, stem ++ dot :: rest) ∧ dot ∉ rest by
    obtain ⟨rest, hrest, hplain⟩ := hsplit
    rw [withExtension, setExtension, hrest]
    simp only [splitName_append hplain, if_neg h.stem_ne]
  by_cases hlength : (tailBytes fillers).length < ext.length
  · -- the name has lost a part of its extension, or all of it
    rw [List.take_append_of_le_length (Nat.le_of_lt hlength)] at htext
    have hslash : slash ∉ stem ++ dot :: ext.take (tailBytes fillers).length := by
      intro hmem
      refine hname ?_
      simp only [List.mem_append, List.mem_cons] at hmem ⊢
      exact hmem.imp_right (Or.imp_right List.mem_of_mem_take)
    have hsegments : segments (withoutExtension path).bytes
        = before ++ [stem ++ dot :: ext.take (tailBytes fillers).length] := by
      rw [htext, segments_leadBytes_append hbefore, segments_of_not_mem hslash]
    refine ⟨ext.take (tailBytes fillers).length, ?_,
      fun hmem => h.ext_plain (List.mem_of_mem_take hmem)⟩
    rw [split?_of_segments hsegments (by simp) (isFiller_append_dot h.stem_ne _), if_neg]
    intro hparent
    obtain ⟨hstem, hrest⟩ := eq_of_append_dot_eq h.stem_ne hparent
    have hnone : (tailBytes fillers).length = 0 := by
      have hzero := congrArg List.length hrest
      rw [List.length_take, List.length_nil] at hzero
      omega
    exact hdots ⟨hstem, tailBytes_eq_nil_iff.1 (List.eq_nil_of_length_eq_zero hnone)⟩
  · -- only what was passed over is shorter
    rw [Nat.not_lt] at hlength
    obtain ⟨kept, hkept, hfillers⟩ :=
      exists_take_tailBytes h.passed ((tailBytes fillers).length - ext.length)
    have hsegments : segments (withoutExtension path).bytes
        = before ++ (stem ++ dot :: ext) :: kept := by
      rw [htext, List.take_append, List.take_of_length_le hlength, hkept,
        segments_leadBytes_append hbefore, ← List.cons_append, ← List.append_assoc,
        segments_append_tailBytes hname fun s hs => slash_not_mem_of_isFiller (hfillers s hs)]
    have hleads : LeadsTo (withoutExtension path) before stem ext kept :=
      ⟨hsegments, hfillers, h.stem_ne, h.ext_ne, h.ext_plain⟩
    exact ⟨ext, hleads.split?_eq, h.ext_plain⟩

/-- A path leads to one file: the parts in `LeadsTo` are told by the path. -/
theorem LeadsTo.unique {before' fillers' : List Bytes} {stem' ext' : Bytes}
    (h : LeadsTo path before stem ext fillers) (h' : LeadsTo path before' stem' ext' fillers') :
    stem = stem' ∧ ext = ext' ∧ tailBytes fillers = tailBytes fillers' := by
  obtain ⟨hlead, hname⟩ := Prod.mk.inj (Option.some.inj (h.split?_eq.symm.trans h'.split?_eq))
  have hparts := h.splitName_eq
  rw [hname, h'.splitName_eq, Prod.mk.injEq, Option.some.injEq] at hparts
  have htext := h.bytes_eq
  rw [h'.bytes_eq, hlead, hparts.1, hparts.2] at htext
  exact ⟨hparts.1.symm, hparts.2.symm, by simpa using htext.symm⟩

/-- The segments that tell two paths apart, which are those that `Same` compares. -/
theorem filter_segments {name : Bytes} (h : segments path.bytes = before ++ name :: fillers)
    (hfillers : ∀ s ∈ fillers, isFiller s = true) (hname : isFiller name = false) :
    (segments path.bytes).filter (!isFiller ·) = before.filter (!isFiller ·) ++ [name] := by
  have hnone : fillers.filter (!isFiller ·) = [] :=
    List.filter_eq_nil_iff.2 fun s hs => by simp [hfillers s hs]
  rw [h, List.filter_append, List.filter_cons_of_pos (by simp [hname]), hnone]

theorem LeadsTo.filter_segments_eq (h : LeadsTo path before stem ext fillers) :
    (segments path.bytes).filter (!isFiller ·)
      = before.filter (!isFiller ·) ++ [stem ++ dot :: ext] :=
  filter_segments h.split h.passed (isFiller_append_dot h.stem_ne ext)

end LeadsTo

/-! ## Names in a directory -/

/-- Bytes that are empty or end in a slash are those of segments before a name. -/
theorem exists_leadBytes {cs : Bytes} (h : cs = [] ∨ cs.getLast? = some slash) :
    ∃ before, cs = leadBytes before ∧ ∀ s ∈ before, slash ∉ s := by
  rcases h with rfl | h
  · exact ⟨[], rfl, by simp⟩
  · obtain ⟨dir, rfl⟩ := List.getLast?_eq_some_iff.1 h
    exact ⟨segments dir, (leadBytes_segments dir).symm, fun s => slash_not_mem_of_mem_segments⟩

/-- A name in a directory is the last segment of the path that `join` makes, and the segments
before it are those of the directory. -/
theorem exists_segments_join (dir : Path) : ∃ before, ∀ name : Path, slash ∉ name.bytes →
    segments (join dir name).bytes = before ++ [name.bytes] := by
  have hlead : ∃ lead : Bytes, (lead = [] ∨ lead.getLast? = some slash) ∧
      ∀ name : Path, slash ∉ name.bytes → (join dir name).bytes = lead ++ name.bytes := by
    have hrelative : ∀ name : Path, slash ∉ name.bytes → isAbsolute name = false := by
      intro name hname
      rw [isAbsolute, beq_eq_false_iff_ne]
      exact fun hhead => hname (List.mem_of_head? hhead)
    by_cases hdir : (dir.bytes.isEmpty || dir.bytes.getLast? == some slash) = true
    · refine ⟨dir.bytes, by simpa using hdir, fun name hname => ?_⟩
      simp [join, hrelative name hname, hdir]
    · refine ⟨dir.bytes ++ [slash], by simp, fun name hname => ?_⟩
      simp [join, hrelative name hname, hdir]
  obtain ⟨lead, hend, hjoin⟩ := hlead
  obtain ⟨before, rfl, hbefore⟩ := exists_leadBytes hend
  refine ⟨before, fun name hname => ?_⟩
  rw [hjoin name hname, segments_leadBytes_append hbefore, segments_of_not_mem hname]

/-! ## Two dots -/

/-- A path that ends in two dots and the extension of a source, after a slash or at the start. -/
def EndsInDots (path : Path) : Prop :=
  ∃ (dir : Bytes) (ext : String), path.bytes = dir ++ dot :: dot :: Text.bytes ext ∧
    (dir = [] ∨ dir.getLast? = some slash) ∧ (Dialect.ofExtension? ext).isSome

/-- `EndsInDots` in terms of the parts of a path: the stem is a dot, and nothing follows the
file. -/
theorem LeadsTo.endsInDots_iff {path : Path} {before fillers : List Bytes} {stem : Bytes}
    {ext : String} {k : Dialect} (h : LeadsTo path before stem (Text.bytes ext) fillers)
    (hk : Dialect.ofExtension? ext = some k) :
    EndsInDots path ↔ stem = [dot] ∧ fillers = [] := by
  constructor
  · rintro ⟨dir, e, hpath, hdir, he⟩
    obtain ⟨hne, hplain, hslash⟩ := Dialect.ofExtension?_plain he
    obtain ⟨lead, rfl, hbefore⟩ := exists_leadBytes hdir
    -- a path leads to one file, so its stem is the dot that is left
    have hdots : LeadsTo path lead [dot] (Text.bytes e) [] := by
      refine ⟨?_, by simp, by simp, hne, hplain⟩
      rw [hpath, segments_leadBytes_append hbefore, segments_of_not_mem]
      · rfl
      · simpa [show slash ≠ dot by decide] using hslash
    obtain ⟨rfl, -, htail⟩ := h.unique hdots
    exact ⟨rfl, tailBytes_eq_nil_iff.1 htail⟩
  · rintro ⟨rfl, rfl⟩
    refine ⟨leadBytes before, ext, ?_, ?_, by simp [hk]⟩
    · rw [h.bytes_eq]
      simp [tailBytes]
    · rcases List.eq_nil_or_concat before with rfl | ⟨before, s, rfl⟩
      · exact .inl rfl
      · exact .inr (by simp [leadBytes])

end Path

/-! ## Where a compiled file goes -/

section Outputs

open Path

variable {p : Path} {before fillers : List Bytes} {stem ext : Bytes}

/-- Beside its source, the `outputPath` of a file has a double extension. -/
theorem Path.LeadsTo.beside (h : LeadsTo p before stem ext fillers)
    (hdots : ¬(stem = [dot] ∧ fillers = [])) (d : Dialect) :
    LeadsTo (outputPath p none d) before (stem ++ Text.bytes ".compiled")
      (Text.bytes d.extension) [] := by
  obtain ⟨hbefore, hname⟩ := h.slash_not_mem
  obtain ⟨hne, hplain, hslash⟩ := d.extension_plain
  refine ⟨?_, by simp, by simp [h.stem_ne], hne, hplain⟩
  have hbytes : (outputPath p none d).bytes = leadBytes before
      ++ (stem ++ Text.bytes ".compiled" ++ dot :: Text.bytes d.extension) := by
    rw [outputPath, h.withExtension_eq hdots, Text.bytes_append, List.append_assoc,
      List.append_assoc]
    rfl
  rw [hbytes, segments_leadBytes_append hbefore, segments_of_not_mem]
  simp only [List.mem_append, List.mem_cons, not_or] at hname ⊢
  exact ⟨⟨hname.1, by decide⟩, by decide, hslash⟩

/-- Where nothing but two dots is left of the name, they are the last segment of `outputPath`.
-/
theorem Path.LeadsTo.segments_beside_dots (h : LeadsTo p before [dot] ext []) (d : Dialect) :
    segments (outputPath p none d).bytes = before ++ [[dot, dot]] := by
  rw [outputPath, h.withExtension_dots, segments_leadBytes_append h.slash_not_mem.1]
  rfl

/-- Two dots lead to the directory above, which is no file, so `split?` finds none. -/
theorem Path.LeadsTo.split?_beside_dots (h : LeadsTo p before [dot] ext []) (d : Dialect) :
    split? (outputPath p none d) = none := by
  rw [split?_of_segments (h.segments_beside_dots d) (by simp) (by decide), if_pos rfl]

/-- The path beside a source is not the `Same` as that of the source. -/
theorem Path.LeadsTo.not_same_beside {e : String} {k : Dialect}
    (h : LeadsTo p before stem (Text.bytes e) fillers) (hk : Dialect.ofExtension? e = some k)
    (d : Dialect) : ¬Same (outputPath p none d) p := by
  intro hsame
  have hnames := hsame.names
  rw [h.filter_segments_eq] at hnames
  -- the last names differ: the dots have no extension, and otherwise one that no source has
  by_cases hdots : stem = [dot] ∧ fillers = []
  · obtain ⟨rfl, rfl⟩ := hdots
    rw [filter_segments (h.segments_beside_dots d) (by simp) (by decide)] at hnames
    exact h.ext_ne (by simpa using hnames.symm)
  · rw [(h.beside hdots d).filter_segments_eq] at hnames
    have hname : stem ++ Text.bytes ".compiled" ++ dot :: Text.bytes d.extension
        = stem ++ dot :: Text.bytes e := by
      simpa using hnames
    have hext : Text.bytes ("compiled." ++ d.extension) = Text.bytes e := by
      rw [List.append_assoc, List.append_cancel_left_eq] at hname
      rw [Text.bytes_append]
      exact (List.cons.inj hname).2
    rw [← Text.bytes_inj.1 hext] at hk
    cases d <;> cases hk

/-- In a directory, a compiled file has the stem of its source, as `Text.shown` shows it. -/
theorem Path.exists_leadsTo_inDirectory (dir : Path) (d : Dialect) : ∃ lead,
    ∀ {p : Path} {before fillers : List Bytes} {stem ext : Bytes},
      LeadsTo p before stem ext fillers →
        LeadsTo (outputPath p (some dir) d) lead (Text.bytes (Text.shown stem))
          (Text.bytes d.extension) [] := by
  obtain ⟨lead, hlead⟩ := exists_segments_join dir
  obtain ⟨hne, hplain, hslash⟩ := d.extension_plain
  refine ⟨lead, fun {p before fillers stem ext} h => ⟨?_, by simp, ?_, hne, hplain⟩⟩
  · -- showing a stem puts no slash into it
    have hname : slash ∉ Text.bytes (Text.shown stem) := fun hmem =>
      h.slash_not_mem.2 (List.mem_append_left _ (Text.mem_of_mem_bytes_shown hmem (by decide)))
    have hbytes : (ofText (Text.shown stem ++ "." ++ d.extension)).bytes
        = Text.bytes (Text.shown stem) ++ dot :: Text.bytes d.extension := by
      rw [ofText, Text.bytes_append, Text.bytes_append, List.append_assoc]
      rfl
    rw [outputPath, h.stem?_eq, Option.getD_some, hlead, hbytes]
    rw [hbytes, List.mem_append, List.mem_cons, not_or, not_or]
    exact ⟨hname, by decide, hslash⟩
  · rw [Ne, Text.bytes_shown_eq_nil_iff]
    exact h.stem_ne

/-- **Where a compiled file goes.** A file of which the extension tells the dialect is compiled to
another one: the compiled file in a directory always shows its dialect, as does the one beside the
source, which is never the source itself. In a directory the files of two sources are the same
exactly if the stems of the sources are shown alike; where both stems are texts, exactly if they are
one stem. But where two dots and an extension end the path of a source, there is no file beside it:
the path is that of the directory above. -/
theorem outputPath_named {k : Dialect} (hp : inputDialect? p = some k) (d : Dialect)
    (dir : Path) :
    (inputDialect? (outputPath p none d) = some d ↔ ¬EndsInDots p) ∧
    (EndsInDots p → fileName? (outputPath p none d) = none) ∧
    inputDialect? (outputPath p (some dir) d) = some d ∧
    ¬Same (outputPath p none d) p ∧
    ∀ (q : Path) (l : Dialect), inputDialect? q = some l →
      (Same (outputPath p (some dir) d) (outputPath q (some dir) d) ↔
        (stem? p).map Text.shown = (stem? q).map Text.shown) ∧
      (outputPath p (some dir) d = outputPath q (some dir) d ↔
        (stem? p).map Text.shown = (stem? q).map Text.shown) ∧
      ∀ s t, stem? p = some (Text.bytes s) → stem? q = some (Text.bytes t) →
        (outputPath p (some dir) d = outputPath q (some dir) d ↔ stem? p = stem? q) := by
  obtain ⟨before, stem, ext, fillers, hleads, hk⟩ := exists_leadsTo hp
  obtain ⟨lead, hlead⟩ := exists_leadsTo_inDirectory dir d
  have hrecognised := d.ofExtension?_extension
  refine ⟨?_, ?_, (hlead hleads).inputDialect?_eq.trans hrecognised,
    hleads.not_same_beside hk d, ?_⟩
  · -- beside the source: the dialect is shown unless nothing but dots is left of the name
    rw [hleads.endsInDots_iff hk]
    constructor
    · rintro hdialect ⟨rfl, rfl⟩
      rw [inputDialect?, extension?, hleads.split?_beside_dots d] at hdialect
      cases hdialect
    · intro hdots
      exact (hleads.beside hdots d).inputDialect?_eq.trans hrecognised
  · rw [hleads.endsInDots_iff hk]
    rintro ⟨rfl, rfl⟩
    rw [fileName?, hleads.split?_beside_dots d]
    rfl
  · intro q l hq
    obtain ⟨before', stem', ext', fillers', hleads', -⟩ := exists_leadsTo hq
    rw [hleads.stem?_eq, hleads'.stem?_eq]
    have hone : Text.shown stem = Text.shown stem' →
        outputPath p (some dir) d = outputPath q (some dir) d := by
      intro hshown
      simp only [outputPath, hleads.stem?_eq, hleads'.stem?_eq, Option.getD_some, hshown]
    have hother : Same (outputPath p (some dir) d) (outputPath q (some dir) d) →
        Text.shown stem = Text.shown stem' := by
      intro hsame
      have hnames := hsame.names
      rw [(hlead hleads).filter_segments_eq, (hlead hleads').filter_segments_eq] at hnames
      simpa using hnames
    simp only [Option.map_some, Option.some.injEq]
    refine ⟨⟨hother, fun hshown => .of_eq (hone hshown)⟩, ⟨fun heq => hother (.of_eq heq), hone⟩,
      ?_⟩
    rintro s t rfl rfl
    rw [Text.bytes_inj]
    refine ⟨fun heq => ?_, fun hst => hone (congrArg _ (congrArg _ hst))⟩
    simpa using hother (.of_eq heq)

/-- A name of two dots and an extension, one with a dot in its stem, and two names of a byte that is
in no text. -/
theorem outputPath_named_dots :
    inputDialect? (.ofText "a/..sjs") = some .brace ∧
      inputDialect? (.ofText "b.c.sp1/.") = some .block ∧
      EndsInDots (.ofText "a/..sjs") ∧
      outputPath (.ofText "a/..sjs") none .block = .ofText "a/.." ∧
      inputDialect? (outputPath (.ofText "a/..sjs") none .block) ≠ some .block ∧
      outputPath (.ofText "b.c.sp1/.") none .brace = .ofText "b.c.compiled.mjs" ∧
      ¬Same (outputPath (.ofText "b.c.sp1/.") none .brace) (.ofText "b.c.sp1/.") ∧
      outputPath (.ofText "a/..sjs") (some (.ofText "o")) .block
        ≠ outputPath (.ofText "b.c.sp1/.") (some (.ofText "o")) .block ∧
      stem? ⟨0xFF :: Text.bytes ".sjs"⟩ ≠ stem? ⟨0xFE :: Text.bytes ".sjs"⟩ ∧
      outputPath ⟨0xFF :: Text.bytes ".sjs"⟩ (some (.ofText "o")) .block
        = outputPath ⟨0xFE :: Text.bytes ".sjs"⟩ (some (.ofText "o")) .block := by
  have hp : inputDialect? (.ofText "a/..sjs") = some .brace := by decide
  have hq : inputDialect? (.ofText "b.c.sp1/.") = some .block := by decide
  have hdots : EndsInDots (.ofText "a/..sjs") :=
    ⟨Text.bytes "a/", "sjs", by decide, by decide, by decide⟩
  have hff : inputDialect? ⟨0xFF :: Text.bytes ".sjs"⟩ = some .brace := by decide
  have hfe : inputDialect? ⟨0xFE :: Text.bytes ".sjs"⟩ = some .brace := by decide
  obtain ⟨hbeside, -, -, -, hmeet⟩ := outputPath_named hp .block (.ofText "o")
  obtain ⟨-, -, -, hother, -⟩ := outputPath_named hq .brace (.ofText "o")
  obtain ⟨-, -, -, -, hbroken⟩ := outputPath_named hff .block (.ofText "o")
  refine ⟨hp, hq, hdots, by decide, fun h => hbeside.1 h hdots, by decide, hother, fun heq => ?_,
    by decide, (hbroken _ _ hfe).2.1.2 (by decide)⟩
  have hstem := (hmeet _ _ hq).2.1.1 heq
  revert hstem
  decide

end Outputs

end Diglot

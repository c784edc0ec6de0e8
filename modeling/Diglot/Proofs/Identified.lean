import Diglot.Proofs.Outlines

/-!
# Outlines tell programs apart

Two programs that are read from texts, in whatever dialects, and that have the same outline are the
same. A program is found again from its sketch. For programs that are read from a text the headings
of the sketch are genuine, so that the sketch is found again from its text, which is the outline.

- `AllRead`: nodes as they are in what is read from a text.
- `Expr.genuine_sketch` and its companions: the headings of such trees are genuine.
- `eq_of_outline_eq`: two programs with the same outline are the same.
-/

namespace Diglot

/-- Nodes that are `Node.Parsed` and `Node.Orderly`, as those that are read are. -/
def AllRead (d : Dialect) (ns : List Node) : Prop :=
  AllNodes (Node.Parsed d) ns ∧ AllNodes Node.Orderly ns

@[simp] theorem allRead_cons {d : Dialect} {n : Node} {ns : List Node} :
    AllRead d (n :: ns) ↔ (n.Parsed d ∧ n.Orderly) ∧ AllRead d ns := by
  simp [AllRead, and_and_and_comm]

@[simp] theorem allRead_append {d : Dialect} {ns ns' : List Node} :
    AllRead d (ns ++ ns') ↔ AllRead d ns ∧ AllRead d ns' := by
  simp [AllRead, and_and_and_comm]

section Genuine

open Sketch

variable {d : Dialect}

/-- The heading of a key is genuine, if the key has the literals of the entry and its names. -/
theorem genuine_pair {key : Key} (hkey : key.Genuine d) (hnames : ∀ n ∈ key.names, IsName d n)
    (hliterals : ∀ v ∈ (Node.entry (.shorthand key)).literals, v.Faithful) :
    (Heading.pair key).Genuine d := by
  refine ⟨hkey, hnames, ?_⟩
  cases key with
  | symbol name => trivial
  | string value text => exact hliterals (.string value text) (by simp [Node.literals])

/-- Headings with nothing below them. -/
theorem allGenuine_map {α : Type} {f : α → Heading} {xs : List α} (h : ∀ x ∈ xs, (f x).Genuine d) :
    AllGenuine d (xs.map fun x => ⟨f x, []⟩) := by
  induction xs with
  | nil => exact allGenuine_nil
  | cons x xs ih =>
    simp only [List.mem_cons, forall_eq_or_imp] at h
    simpa [h.1] using ih h.2

theorem allGenuine_append {ss ss' : List Sketch} :
    AllGenuine d (ss ++ ss') ↔ AllGenuine d ss ∧ AllGenuine d ss' := by
  induction ss with
  | nil => simp
  | cons s ss ih => simp [ih, and_assoc]

mutual

/-- The headings of `Expr.sketch` are genuine, if the nodes of the expression are `AllRead`. -/
theorem Expr.genuine_sketch : (e : Expr) → AllRead d e.nodes → e.sketch.Genuine d
  | .symbol name, h => by
    have hname := (allRead_cons.1 h).1.1.names name (by simp [Node.names])
    simpa [Expr.sketch, Heading.Genuine] using hname.word
  | .literal value, h => by
    obtain ⟨⟨hparsed, horderly⟩, -⟩ := allRead_cons.1 h
    have hvalue := horderly.faithful value (by simp [Node.literals])
    simpa [Expr.sketch, Heading.Genuine] using ⟨hparsed.formed, hvalue⟩
  | .grouping inner, h => by
    simpa [Expr.sketch, Heading.Genuine] using inner.genuine_sketch (allRead_cons.1 h).2
  | .unary op operand, h => by
    simpa [Expr.sketch, Heading.Genuine] using operand.genuine_sketch (allRead_cons.1 h).2
  | .step op operand, h => by
    simpa [Expr.sketch, Heading.Genuine] using operand.genuine_sketch (allRead_cons.1 h).2
  | .binary op left right, h => by
    obtain ⟨⟨hparsed, -⟩, hnodes⟩ := allRead_cons.1 h
    have hleft := left.genuine_sketch (allRead_append.1 hnodes).1
    by_cases hop : op = .dot
    · -- the name of a member is no node of its own
      obtain ⟨name, rfl, hname⟩ := hparsed.formed.2 hop
      simpa [Expr.sketch, Heading.Genuine] using ⟨hleft, hname⟩
    · rw [if_neg hop] at hnodes
      have hright := right.genuine_sketch (allRead_append.1 hnodes).2
      simpa [Expr.sketch, Heading.Genuine] using ⟨hleft, hright⟩
  | .ternary test yes no, h => by
    obtain ⟨⟨htest, hyes⟩, hno⟩ := by simpa only [allRead_append] using (allRead_cons.1 h).2
    simpa [Expr.sketch, Heading.Genuine] using
      ⟨test.genuine_sketch htest, yes.genuine_sketch hyes, no.genuine_sketch hno⟩
  | .call callee arguments, h => by
    obtain ⟨hcallee, harguments⟩ := allRead_append.1 (allRead_cons.1 h).2
    simpa [Expr.sketch, Heading.Genuine] using
      ⟨callee.genuine_sketch hcallee, arguments.genuine_sketch harguments⟩
  | .index target position, h => by
    obtain ⟨htarget, hposition⟩ := allRead_append.1 (allRead_cons.1 h).2
    simpa [Expr.sketch, Heading.Genuine] using
      ⟨target.genuine_sketch htarget, position.genuine_sketch hposition⟩
  | .object es, h => by
    simpa [Expr.sketch, Heading.Genuine] using Entry.genuine_sketches es (allRead_cons.1 h).2
  | .list es comma, h => by
    simpa [Expr.sketch, Heading.Genuine] using Expr.genuine_sketches es (allRead_cons.1 h).2
  | .array es, h => by
    simpa [Expr.sketch, Heading.Genuine] using Expr.genuine_sketches es (allRead_cons.1 h).2
  | .function name params body, h => by
    obtain ⟨⟨hparsed, -⟩, hbody⟩ := allRead_cons.1 h
    rw [Expr.sketch, genuine_mk]
    exact ⟨hparsed.names, Declaration.genuine_sketches body hbody⟩
  | .arrow params body, h => by
    obtain ⟨⟨hparsed, -⟩, hbody⟩ := allRead_cons.1 h
    rw [Expr.sketch, genuine_mk]
    exact ⟨hparsed.names, allGenuine_cons.2 ⟨body.genuine_sketch hbody, allGenuine_nil⟩⟩
  | .arrowBlock params body, h => by
    obtain ⟨⟨hparsed, -⟩, hbody⟩ := allRead_cons.1 h
    rw [Expr.sketch, genuine_mk]
    exact ⟨hparsed.names, Declaration.genuine_sketches body hbody⟩

/-- So are those of several expressions. -/
theorem Expr.genuine_sketches : (es : List Expr) → AllRead d (Expr.nodesOf es) →
    AllGenuine d (Expr.sketches es)
  | [], _ => allGenuine_nil
  | e :: es, h => by
    obtain ⟨he, hes⟩ := allRead_append.1 h
    exact allGenuine_cons.2 ⟨e.genuine_sketch he, Expr.genuine_sketches es hes⟩

/-- So are those of an object entry. -/
theorem Entry.genuine_sketch : (e : Entry) → AllRead d e.nodes → e.sketch.Genuine d
  | .shorthand key, h => by
    obtain ⟨⟨hparsed, horderly⟩, -⟩ := allRead_cons.1 h
    rw [Entry.sketch, genuine_mk]
    exact ⟨genuine_pair hparsed.formed hparsed.names horderly.faithful, allGenuine_nil⟩
  | .pair key value, h => by
    obtain ⟨⟨hparsed, horderly⟩, hvalue⟩ := allRead_cons.1 h
    rw [Entry.sketch, genuine_mk]
    refine ⟨genuine_pair hparsed.formed hparsed.names ?_,
      allGenuine_cons.2 ⟨value.genuine_sketch hvalue, allGenuine_nil⟩⟩
    cases key with
    | symbol name => exact nofun
    | string value text => exact horderly.faithful

theorem Entry.genuine_sketches : (es : List Entry) → AllRead d (Entry.nodesOf es) →
    AllGenuine d (Entry.sketches es)
  | [], _ => allGenuine_nil
  | e :: es, h => by
    obtain ⟨he, hes⟩ := allRead_append.1 h
    exact allGenuine_cons.2 ⟨e.genuine_sketch he, Entry.genuine_sketches es hes⟩

/-- So are those of a statement, in which a loop declares a name. -/
theorem Statement.genuine_sketch : (s : Statement) → AllRead d s.nodes → s.sketch.Genuine d
  | .ifThen test body none, h => by
    obtain ⟨htest, hbody⟩ := allRead_append.1 (allRead_cons.1 h).2
    simpa [Statement.sketch, Heading.Genuine] using
      ⟨test.genuine_sketch htest, Declaration.genuine_sketches body hbody⟩
  | .ifThen test body (some other), h => by
    obtain ⟨hthen, hother⟩ := allRead_append.1 (allRead_cons.1 h).2
    obtain ⟨htest, hbody⟩ := allRead_append.1 hthen
    simpa [Statement.sketch, Heading.Genuine] using ⟨test.genuine_sketch htest,
      Declaration.genuine_sketches body hbody, other.genuine_sketch hother⟩
  | .whileLoop test body, h => by
    obtain ⟨htest, hbody⟩ := allRead_append.1 (allRead_cons.1 h).2
    simpa [Statement.sketch, Heading.Genuine] using
      ⟨test.genuine_sketch htest, Declaration.genuine_sketches body hbody⟩
  | .forLoop keyword names collection body bracketed, h => by
    obtain ⟨⟨hparsed, horderly⟩, hparts⟩ := allRead_cons.1 h
    obtain ⟨hcollection, hbody⟩ := allRead_append.1 hparts
    have hheading : (Heading.forLoop keyword names bracketed).Genuine d :=
      ⟨horderly.filled, hparsed.names⟩
    have hdo : (Heading.mark .doPart).Genuine d := trivial
    simpa [Statement.sketch, hheading, hdo] using
      ⟨collection.genuine_sketch hcollection, Declaration.genuine_sketches body hbody⟩
  | .throw value, h => by
    simpa [Statement.sketch, Heading.Genuine] using value.genuine_sketch (allRead_cons.1 h).2
  | .ret none, _ => by simp [Statement.sketch, Heading.Genuine]
  | .ret (some value), h => by
    simpa [Statement.sketch, Heading.Genuine] using value.genuine_sketch (allRead_cons.1 h).2
  | .expr value, h => value.genuine_sketch (allRead_cons.1 h).2
  | .block body, h => by
    simpa [Statement.sketch, Heading.Genuine] using
      Declaration.genuine_sketches body (allRead_cons.1 h).2

/-- So are those of a declaration. -/
theorem Declaration.genuine_sketch : (x : Declaration) → AllRead d x.nodes → x.sketch.Genuine d
  | .function name params body exported isAsync, h => by
    obtain ⟨⟨hparsed, -⟩, hbody⟩ := allRead_cons.1 h
    rw [Declaration.sketch, genuine_mk]
    exact ⟨hparsed.names, Declaration.genuine_sketches body hbody⟩
  | .var keyword name none exported, h => by
    obtain ⟨⟨hparsed, -⟩, -⟩ := allRead_cons.1 h
    rw [Declaration.sketch, genuine_mk]
    exact ⟨hparsed.names, allGenuine_nil⟩
  | .var keyword name (some value) exported, h => by
    obtain ⟨⟨hparsed, -⟩, hvalue⟩ := allRead_cons.1 h
    rw [Declaration.sketch, genuine_mk]
    exact ⟨hparsed.names, allGenuine_cons.2 ⟨value.genuine_sketch hvalue, allGenuine_nil⟩⟩
  | .vars keyword names value exported, h => by
    obtain ⟨⟨hparsed, -⟩, hvalue⟩ := allRead_cons.1 h
    rw [Declaration.sketch, genuine_mk]
    exact ⟨hparsed.names, allGenuine_cons.2 ⟨value.genuine_sketch hvalue, allGenuine_nil⟩⟩
  | .statement s, h => s.genuine_sketch (allRead_cons.1 h).2
  | .comments cs, h => by
    obtain ⟨⟨hparsed, -⟩, -⟩ := allRead_cons.1 h
    rw [Declaration.sketch, genuine_mk]
    exact ⟨trivial, allGenuine_map hparsed.formed.2⟩

/-- So are those of a block. -/
theorem Declaration.genuine_sketches : (xs : List Declaration) →
    AllRead d (Declaration.nodesOf xs) → AllGenuine d (Declaration.sketches xs)
  | [], _ => allGenuine_nil
  | x :: xs, h => by
    obtain ⟨hx, hxs⟩ := allRead_append.1 h
    exact allGenuine_cons.2 ⟨x.genuine_sketch hx, Declaration.genuine_sketches xs hxs⟩

end

/-- The headings of a program that is `Program.Parsed` and orderly are genuine. -/
theorem Program.genuine_sketch {p : Program} (hp : p.Parsed d)
    (ho : AllNodes Node.Orderly p.nodes) :
    p.sketch.Genuine d := by
  simp only [Program.sketch, genuine_mk, Program.below, allGenuine_append]
  refine ⟨trivial, ⟨⟨⟨allGenuine_map hp.leading, allGenuine_map fun name hname => ?_⟩,
    allGenuine_map hp.imports⟩, Declaration.genuine_sketches p.body ⟨hp.nodes, ho⟩⟩,
    allGenuine_map fun _ _ => trivial⟩
  exact hp.moduleName name (Option.mem_toList.1 hname)

end Genuine

/-- **An outline tells its program**: two programs that are read from texts, in whatever dialects,
and that have the same outline are the same. -/
theorem eq_of_outline_eq {d d' : Dialect} {file file' text text' : String} {p q : Program}
    (hp : parseText d file text = .ok (some p)) (hq : parseText d' file' text' = .ok (some q))
    (h : p.outline = q.outline) : p = q := by
  have hsketch : p.sketch = q.sketch := by
    refine Sketch.eq_of_render_eq
      (Program.genuine_sketch (parsed_of_parseText hp).1 (reads_of_parseText hp).orderly.1)
      (Program.genuine_sketch (parsed_of_parseText hq).1 (reads_of_parseText hq).orderly.1) ?_
    rw [← p.outline_eq_render, h, q.outline_eq_render]
  exact Program.eq_of_sketch_eq hsketch

/-- A loop in both dialects, around a string with a line feed that looks like a line of an
outline. -/
theorem eq_of_outline_eq_loop :
    ∃ p q, parseText .brace "a" "while (x) \x7b y = `a\n  symbol b`; \x7d" = .ok (some p) ∧
      parseText .block "b" "while x do y = `a\n  symbol b`; end" = .ok (some q) ∧
      p.outline = q.outline ∧ p = q := by
  have hbrace : (parseText .brace "a"
      "while (x) \x7b y = `a\n  symbol b`; \x7d").toOption.join.isSome = true := by
    rw [parseText, parse, Lexer.run, Lexer.tokens_ofText]
    decide +kernel
  have houtline : (parseText .brace "a"
      "while (x) \x7b y = `a\n  symbol b`; \x7d").toOption.join.map Program.outline =
        (parseText .block "b"
          "while x do y = `a\n  symbol b`; end").toOption.join.map Program.outline := by
    rw [parseText, parse, Lexer.run, Lexer.tokens_ofText, parseText, parse, Lexer.run,
      Lexer.tokens_ofText]
    decide +kernel
  obtain ⟨p, hp⟩ := Option.isSome_iff_exists.1 hbrace
  rw [hp] at houtline
  obtain ⟨q, hq, hpq⟩ := Option.map_eq_some_iff.1 houtline.symm
  have hparse := eq_ok_of_toOption (Option.join_eq_some_iff.1 hp)
  have hparse' := eq_ok_of_toOption (Option.join_eq_some_iff.1 hq)
  exact ⟨p, q, hparse, hparse', hpq.symm, eq_of_outline_eq hparse hparse' hpq.symm⟩

end Diglot

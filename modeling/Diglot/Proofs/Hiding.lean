import Diglot.Proofs.Positions

/-!
# Hiding is filtering

A call that is not to see blanks or comments reads on until there is a token that it may give. So it
gives the first such token of the stream in which everything is seen, as it stands there, and it
leaves the lexer where that stream stands after the token. Neither the end of a text nor its trailer
is ever passed over. Whatever the calls before it saw, they have left the lexer at a place of the
same stream.

- `Visibility.PassesOver`: the kinds that a call does not give.
- `Lexer.Finds`: a token of the stream that only tokens to be passed over come before.
- `Lexer.exists_finds`: a call gives such a token.
- `Lexer.exists_calls_afterCalls`: calls of all sorts stay within the stream.
- `Lexer.next_eq_first_seen`: what a call gives after other calls.
-/

namespace Diglot

namespace Visibility

/-- A call does not give tokens of a kind: they are blanks or line breaks, which it is not to
see, or comments, which it is not to see. `Visibility.hides` decides it. -/
def PassesOver (v : Visibility) (k : TokenKind) : Prop :=
  v.whitespace = false ∧ (k = .whitespace ∨ k = .newline) ∨
    v.comments = false ∧ (k = .lineComment ∨ k = .blockComment)

instance (v : Visibility) (k : TokenKind) : Decidable (v.PassesOver k) :=
  inferInstanceAs (Decidable (_ ∨ _))

variable {v : Visibility} {k : TokenKind}

theorem hides_iff : v.hides k = true ↔ v.PassesOver k := by
  cases k <;> simp [hides, PassesOver, TokenKind.isWhitespace, TokenKind.isComment]

/-- The end of a text and its trailer are always seen: no call `PassesOver` them. -/
theorem PassesOver.ne_eof_trailer (h : v.PassesOver k) : k ≠ .eof ∧ k ≠ .outputComment := by
  obtain ⟨-, rfl | rfl⟩ | ⟨-, rfl | rfl⟩ := h <;> decide

end Visibility

namespace Lexer

variable {v : Visibility} {l l' : Lexer} {t : Token}

/-! ## One call -/

/-- In the stream of a lexer in which everything is seen, some tokens that are passed over come
first, then one that is not, and after it another lexer is left. -/
structure Finds (v : Visibility) (l : Lexer) (passed : List Token) (t : Token) (l' : Lexer) :
    Prop where
  stream : l.calls .all (passed.length + 1) = (passed ++ [t], l')
  passed : ∀ u ∈ passed, v.PassesOver u.kind
  seen : ¬v.PassesOver t.kind

/-- A call gives the first token that it does not pass over: what `next` gives is what it
`Finds`. -/
theorem exists_finds (v : Visibility) (l : Lexer) :
    ∃ passed, l.Finds v passed (l.next v).1 (l.next v).2 := by
  fun_induction next v l with
  | case1 l hidden ih =>
    obtain ⟨passed, hfinds⟩ := ih
    refine ⟨l.scan.1 :: passed, ?_, ?_, hfinds.seen⟩
    · rw [List.length_cons, calls, next_all, hfinds.stream, List.cons_append]
    · intro u hu
      obtain rfl | hu := List.mem_cons.1 hu
      · exact Visibility.hides_iff.1 hidden
      · exact hfinds.passed u hu
  | case2 l seen =>
    refine ⟨[], ?_, by simp, fun hover => seen (Visibility.hides_iff.2 hover)⟩
    rw [List.length_nil, calls, next_all, calls, List.nil_append]

/-- Without the tokens that are passed over, one is left. -/
theorem Finds.filter {passed : List Token} (h : l.Finds v passed t l') :
    (passed ++ [t]).filter (fun u => ¬v.PassesOver u.kind) = [t] := by
  have hpassed : passed.filter (fun u => ¬v.PassesOver u.kind) = [] :=
    List.filter_eq_nil_iff.2 fun u hu => by simpa using h.passed u hu
  rw [List.filter_append, hpassed, List.filter_singleton]
  simp [h.seen]

/-! ## Several calls -/

/-- Calls that see the same give the stream of `Visibility.all` without the tokens that they
pass over. -/
theorem exists_calls_filter (v : Visibility) (k : Nat) (l : Lexer) :
    ∃ n, l.calls v k =
      ((l.calls .all n).1.filter (fun u => ¬v.PassesOver u.kind), (l.calls .all n).2) := by
  induction k generalizing l with
  | zero => exact ⟨0, rfl⟩
  | succ k ih =>
    obtain ⟨passed, hfinds⟩ := l.exists_finds v
    obtain ⟨n, hn⟩ := ih (l.next v).2
    refine ⟨passed.length + 1 + n, ?_⟩
    rw [calls, hn, calls_add, hfinds.stream, List.filter_append, hfinds.filter,
      List.singleton_append]

/-- Calls leave the lexer at a place of the stream of `Visibility.all`, whatever each of them
sees. -/
theorem exists_calls_afterCalls (vs : List Visibility) (l : Lexer) :
    ∃ n, l.afterCalls vs = (l.calls .all n).2 := by
  induction vs generalizing l with
  | nil => exact ⟨0, rfl⟩
  | cons v vs ih =>
    obtain ⟨passed, hfinds⟩ := l.exists_finds v
    obtain ⟨n, hn⟩ := ih (l.next v).2
    refine ⟨passed.length + 1 + n, ?_⟩
    rw [calls_add, hfinds.stream]
    exact hn

/-- **Hiding is filtering**: whatever calls have been made, they have left a lexer `l` at a place of
the stream in which everything is seen. From there a call gives the first token of the stream that
is neither a hidden blank or line break nor a hidden comment, and leaves the lexer that the stream
has right after it; the end of the text and the trailer are not among the tokens it passes over. So
any number of calls that see the same give the stream of `l` without the tokens they pass over. -/
theorem next_eq_first_seen (d : Dialect) (file text : String) (vs : List Visibility)
    (v : Visibility) :
    ∃ (l l' : Lexer) (m : Nat) (passed : List Token) (t : Token),
      (ofText d file text).afterCalls vs = l ∧
      ((ofText d file text).calls .all m).2 = l ∧
      l.next v = (t, l') ∧
      l.calls .all (passed.length + 1) = (passed ++ [t], l') ∧
      (∀ u ∈ passed, v.PassesOver u.kind ∧ u.kind ≠ .eof ∧ u.kind ≠ .outputComment) ∧
      ¬v.PassesOver t.kind ∧
      ∀ k, ∃ n, l.calls v k =
        ((l.calls .all n).1.filter (fun u => ¬v.PassesOver u.kind), (l.calls .all n).2) := by
  obtain ⟨m, hm⟩ := exists_calls_afterCalls vs (ofText d file text)
  generalize (ofText d file text).afterCalls vs = l at hm
  obtain ⟨passed, hfinds⟩ := l.exists_finds v
  refine ⟨l, (l.next v).2, m, passed, (l.next v).1, rfl, hm.symm, rfl, hfinds.stream, ?_,
    hfinds.seen, fun k => exists_calls_filter v k l⟩
  exact fun u hu => ⟨hfinds.passed u hu, (hfinds.passed u hu).ne_eof_trailer⟩

end Lexer

end Diglot

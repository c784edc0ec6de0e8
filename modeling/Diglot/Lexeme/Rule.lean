import Diglot.Dialect
import Diglot.Lexeme.Scan

/-!
# Rules

The lexical rules of a dialect, in order. The first rule whose scan finds something decides both
the kind and the length of the next token, even where a later one would find more. Only the rules
for reserved words differ from dialect to dialect.

- `Rule`: a kind and its scan.
- `rules`: the rules of a dialect.
- `classify`: kind and length of the first token of a text. The length is never zero
  (`classify_pos`), so that reading always moves on.
-/

namespace Diglot.Lexeme

/-- A lexical rule: tokens of one `TokenKind`, and the `Scan` that finds them. -/
structure Rule where
  kind : TokenKind
  scan : Scan

namespace Rule

/-- The rule for a punctuation token: its `Punct.spelling`, whatever follows it. -/
def punct (p : Punct) : Rule :=
  ⟨.punct p, fixed p.spelling⟩

/-- The rule for a reserved word: its `Keyword.spelling`, as a whole `word`. -/
def keyword (k : Keyword) : Rule :=
  ⟨.keyword k, word k.spelling⟩

/-- What a rule finds at the start of a text. A `scan` of no characters finds nothing. -/
def find? (r : Rule) (cs : List Char) : Option (TokenKind × Nat) :=
  match r.scan cs with
  | 0 => none
  | n + 1 => some (r.kind, n + 1)

end Rule

/-- The rules tried before the reserved words. Longer signs stand before those they begin with. -/
def earlyRules : List Rule :=
  [ ⟨.outputComment, outputComment⟩
  , ⟨.newline, newline⟩
  , ⟨.whitespace, whitespace⟩
  , ⟨.lineComment, lineComment⟩
  , ⟨.blockComment, blockComment⟩
  , ⟨.regexp, regexp⟩
  , ⟨.string, string⟩
  , ⟨.badString, badString⟩
  , .punct .lparen, .punct .rparen, .punct .lbrace, .punct .rbrace, .punct .lbrack, .punct .rbrack
  , .punct .arrow, .punct .identical, .punct .notIdentical, .punct .eqEq, .punct .notEq
  , .punct .lessEq, .punct .greaterEq, .punct .less, .punct .greater
  , ⟨.assign, assign⟩
  , .punct .semicolon, .punct .comma, .punct .colon, .punct .dot
  , .punct .orOr, .punct .andAnd, .punct .plusPlus, .punct .minusMinus, .punct .starStar
  , ⟨.boolean, word "true"⟩
  , ⟨.boolean, word "false"⟩ ]

/-- The rules tried after the reserved words. `flonum` stands before `fixnum`, which would take
its first digits. -/
def lateRules : List Rule :=
  [ ⟨.flonum, flonum⟩
  , ⟨.symbol, symbol⟩
  , ⟨.fixnum, fixnum⟩
  , .punct .plus, .punct .minus, .punct .not, .punct .star, .punct .slash, .punct .percent
  , .punct .question ]

/-- The lexical rules of a dialect, in order: `earlyRules`, the dialect's `keywords`,
`lateRules`. -/
def rules (d : Dialect) : List Rule :=
  earlyRules ++ d.keywords.map Rule.keyword ++ lateRules

/-- Kind and length of the first token of a text: what the first of the `rules` finds that finds
anything. A character that no rule knows is a token of its own, of the kind `unknown`. -/
def classify (d : Dialect) (cs : List Char) : TokenKind × Nat :=
  ((rules d).findSome? fun r => r.find? cs).getD (.unknown, 1)

/-- What `find?` gives is not empty. -/
theorem Rule.pos_of_find? {r : Rule} {cs : List Char} {k : TokenKind} {n : Nat}
    (h : r.find? cs = some (k, n)) : 0 < n := by
  unfold find? at h
  split at h <;> simp_all
  omega

/-- The first token of a text, as `classify` cuts it, takes at least one character. -/
theorem classify_pos (d : Dialect) (cs : List Char) : 0 < (classify d cs).2 := by
  unfold classify
  cases h : (rules d).findSome? fun r => r.find? cs with
  | none => simp
  | some kn =>
    obtain ⟨r, _, hr⟩ := List.exists_of_findSome?_eq_some h
    exact Rule.pos_of_find? hr

end Diglot.Lexeme

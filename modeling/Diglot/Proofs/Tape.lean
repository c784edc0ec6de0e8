import Diglot.Grammar.Program
import Diglot.Proofs.Genuine

/-!
# Tapes

What is left of a text as the grammar sees it: significant tokens without their places, with the
comments between them. The comments that wait in a reader are those at the front of its tape, so a
tape is all that reading depends on: going past a token takes the first token out of the tape and
leaves the comments before it where they are.

- `Piece`, `Tape`: a token or a comment, and what is left of a text.
- `Takes`, `Passes`: a tape begins with a token, apart from comments, and goes on without it.
- `Reader.tape`: the tape of a reader; `Reader.takes_next` says that the two move together.
- `Tape.Proper`: genuine tokens, and a mark of the end at the end only.
-/

namespace Diglot

/-- A comment, or a significant token without its place. -/
inductive Piece where
  | comment (c : Comment)
  | token (kind : TokenKind) (text : String)
  deriving DecidableEq, Repr

/-- What is left of a text. -/
abbrev Tape := List Piece

namespace Tape

/-- The kind of the first token. -/
def kind : Tape → TokenKind
  | [] => .eof
  | .comment _ :: S => kind S
  | .token k _ :: _ => k

/-- The text of the first token. -/
def text : Tape → String
  | [] => ""
  | .comment _ :: S => text S
  | .token _ t :: _ => t

/-- The comments before the first token. -/
def waiting : Tape → List Comment
  | .comment c :: S => c :: waiting S
  | _ => []

/-- The tape from the first token on. -/
def flush : Tape → Tape
  | .comment _ :: S => flush S
  | S => S

/-- All comments. -/
def comments : Tape → List Comment
  | [] => []
  | .comment c :: S => c :: comments S
  | .token _ _ :: S => comments S

/-- The number of tokens. -/
def tokens : Tape → Nat
  | [] => 0
  | .comment _ :: S => tokens S
  | .token _ _ :: S => tokens S + 1

/-- The tokens with their texts. -/
def words : Tape → List (TokenKind × String)
  | [] => []
  | .comment _ :: S => words S
  | .token k t :: S => (k, t) :: words S

/-- Comments in front of a tape do not change its `kind`. -/
@[simp] theorem kind_map_comment (cs : List Comment) (S : Tape) :
    kind (cs.map .comment ++ S) = kind S := by
  induction cs with
  | nil => rfl
  | cons c cs ih => simpa [kind] using ih

@[simp] theorem text_map_comment (cs : List Comment) (S : Tape) :
    text (cs.map .comment ++ S) = text S := by
  induction cs with
  | nil => rfl
  | cons c cs ih => simpa [text] using ih

/-- The tokens of two tapes, one after the other; `tokens_map_comment` says that comments add
none. -/
@[simp] theorem tokens_append (S T : Tape) : tokens (S ++ T) = tokens S + tokens T := by
  induction S with
  | nil => simp [tokens]
  | cons p S ih =>
    cases p <;> simp [tokens, ih]
    omega

@[simp] theorem tokens_map_comment (cs : List Comment) : tokens (cs.map .comment) = 0 := by
  induction cs with
  | nil => rfl
  | cons c cs ih => simpa [tokens] using ih

@[simp] theorem comments_append (S T : Tape) : comments (S ++ T) = comments S ++ comments T := by
  induction S with
  | nil => simp [comments]
  | cons p S ih => cases p <;> simp [comments, ih]

@[simp] theorem comments_map_comment (cs : List Comment) : comments (cs.map .comment) = cs := by
  induction cs with
  | nil => rfl
  | cons c cs ih => simpa [comments] using ih

@[simp] theorem words_append (S T : Tape) : words (S ++ T) = words S ++ words T := by
  induction S with
  | nil => rfl
  | cons p S ih => cases p <;> simp [words, ih]

/-- The first of the `words` of a tape has the `kind` of the tape. -/
theorem kind_of_head? {S : Tape} {w : TokenKind × String} (h : w ∈ S.words.head?) :
    S.kind = w.1 := by
  induction S with
  | nil => cases h
  | cons p S ih =>
    cases p with
    | comment c => exact ih h
    | token k t =>
      cases h
      rfl

@[simp] theorem words_map_comment (cs : List Comment) : words (cs.map .comment) = [] := by
  induction cs with
  | nil => rfl
  | cons c cs ih => exact ih

/-- A tape is the comments that wait, `waiting`, and what follows them, `flush`. -/
theorem waiting_append_flush (S : Tape) : S.waiting.map .comment ++ S.flush = S := by
  induction S with
  | nil => rfl
  | cons p S ih =>
    cases p with
    | comment c => simpa [waiting, flush] using ih
    | token k t => rfl

/-- Taking the comments that wait does not change the first token: `flush` keeps `kind`. -/
@[simp] theorem kind_flush (S : Tape) : kind (flush S) = kind S := by
  rw [← kind_map_comment S.waiting, waiting_append_flush]

@[simp] theorem waiting_flush (S : Tape) : waiting (flush S) = [] := by
  induction S with
  | nil => rfl
  | cons p S ih =>
    cases p with
    | comment c => exact ih
    | token k t => rfl

/-- Comments put in front of a tape wait before those that wait already. -/
theorem waiting_map_comment (cs : List Comment) (S : Tape) :
    waiting (cs.map .comment ++ S) = cs ++ waiting S := by
  induction cs with
  | nil => rfl
  | cons c cs ih => exact congrArg (c :: ·) ih

/-- Comments put in front of a tape are gone after `flush`. -/
theorem flush_map_comment (cs : List Comment) (S : Tape) :
    flush (cs.map .comment ++ S) = flush S := by
  induction cs with
  | nil => rfl
  | cons c cs ih => exact ih

/-- Where no comment waits, `flush` has nothing to take. -/
theorem flush_of_waiting {S : Tape} (h : S.waiting = []) : S.flush = S := by
  simpa [h] using S.waiting_append_flush

@[simp, grind =] theorem tokens_flush (S : Tape) : tokens (flush S) = tokens S := by
  have h := congrArg tokens (waiting_append_flush S)
  simpa using h

@[simp, grind =] theorem words_flush (S : Tape) : words (flush S) = words S := by
  have h := congrArg words (waiting_append_flush S)
  simpa using h

end Tape

/-! ## Going past a token -/

/-- Apart from comments, a tape begins with a token, and goes on without it. -/
inductive Takes : Tape → TokenKind → String → Tape → Prop
  | token (k : TokenKind) (t : String) (S : Tape) : Takes (.token k t :: S) k t S
  | comment (c : Comment) {S S' : Tape} {k : TokenKind} {t : String} (h : Takes S k t S') :
      Takes (.comment c :: S) k t (.comment c :: S')

/-- A tape begins with a token of a kind, whatever its text, and goes on without it. -/
def Passes (S : Tape) (k : TokenKind) (S' : Tape) : Prop :=
  ∃ t, Takes S k t S'

namespace Takes

variable {S S' : Tape} {k : TokenKind} {t : String}

/-- The token that is gone past is the first one, the one that `Tape.kind` tells of. -/
theorem kind_eq (h : Takes S k t S') : S.kind = k := by
  induction h with
  | token => rfl
  | comment _ _ ih => exact ih

theorem text_eq (h : Takes S k t S') : S.text = t := by
  induction h with
  | token => rfl
  | comment _ _ ih => exact ih

/-- Going past a token loses no comment. -/
theorem comments_eq (h : Takes S k t S') : S.comments = S'.comments := by
  induction h with
  | token => rfl
  | comment c _ ih => simp [Tape.comments, ih]

/-- Going past a token takes the first of the `words`. -/
theorem words_eq (h : Takes S k t S') : S.words = (k, t) :: S'.words := by
  induction h with
  | token => rfl
  | comment c _ ih => exact ih

/-- Going past a token leaves one token less. This is what makes `Reads` go forward. -/
@[grind →] theorem tokens_eq (h : Takes S k t S') : S.tokens = S'.tokens + 1 := by
  induction h with
  | token => rfl
  | comment c _ ih => simpa [Tape.tokens] using ih

/-- The token was on the tape. -/
theorem mem (h : Takes S k t S') : .token k t ∈ S := by
  induction h with
  | token => simp
  | comment c _ ih => simp [ih]

/-- What is left was on the tape, so `Tape.Proper` is kept. -/
theorem mem_of_mem (h : Takes S k t S') {p : Piece} (hp : p ∈ S') : p ∈ S := by
  induction h with
  | token => exact List.mem_cons_of_mem _ hp
  | comment c _ ih =>
    rcases List.mem_cons.1 hp with rfl | hp
    · exact List.mem_cons_self
    · exact List.mem_cons_of_mem _ (ih hp)

/-- A tape has one first token and goes on in one way: `Takes` is a function of its first
argument. -/
theorem unique {k' : TokenKind} {t' : String} {S'' : Tape} (h : Takes S k t S')
    (h' : Takes S k' t' S'') : k = k' ∧ t = t' ∧ S' = S'' := by
  induction h generalizing S'' with
  | token =>
    cases h'
    exact ⟨rfl, rfl, rfl⟩
  | comment c _ ih =>
    cases h' with
    | comment _ h' =>
      obtain ⟨hk, ht, rfl⟩ := ih h'
      exact ⟨hk, ht, rfl⟩

/-- Comments in front of a tape stay in front of it. -/
theorem map_comment (h : Takes S k t S') (cs : List Comment) :
    Takes (cs.map .comment ++ S) k t (cs.map .comment ++ S') := by
  induction cs with
  | nil => exact h
  | cons c cs ih => exact .comment c ih

end Takes

theorem Passes.kind_eq {S S' : Tape} {k : TokenKind} (h : Passes S k S') : S.kind = k := by
  obtain ⟨t, ht⟩ := h
  exact ht.kind_eq

/-! ## Readers and their tapes -/

/-- The pieces of a `Word`: its comments and its token. -/
def Word.pieces (w : Word) : Tape :=
  w.comments.map .comment ++ [.token w.token.kind w.token.text]

/-- The tape that a `Reader` has before it, the comments that are pending at its front. -/
def Reader.tape (r : Reader) : Tape :=
  r.pending.map .comment ++ .token r.current.kind r.current.text :: r.ahead.flatMap Word.pieces

/-- Tokens and comments that are `Genuine`, among which the last token alone marks the end. -/
structure Tape.Proper (d : Dialect) (S : Tape) : Prop where
  genuine : ∀ k t, .token k t ∈ S → Genuine d t k
  line : ∀ t, .comment ⟨.line, t⟩ ∈ S → Genuine d t .lineComment
  block : ∀ t, .comment ⟨.block, t⟩ ∈ S → Genuine d t .blockComment
  ends : ∃ init t, S = init ++ [.token .eof t] ∧ ∀ u, .token .eof u ∉ init

namespace Tape.Proper

variable {d : Dialect} {S S' : Tape}

/-- What is left past a token is `Proper` again. -/
theorem takes {k : TokenKind} {t : String} (hS : S.Proper d) (hk : k ≠ .eof)
    (h : Takes S k t S') : S'.Proper d where
  genuine k t ht := hS.genuine k t (h.mem_of_mem ht)
  line t ht := hS.line t (h.mem_of_mem ht)
  block t ht := hS.block t (h.mem_of_mem ht)
  ends := by
    obtain ⟨init, u, heq, hinit⟩ := hS.ends
    clear hS
    induction h generalizing init with
    | token =>
      cases init with
      | nil => simp_all
      | cons p init =>
        obtain ⟨rfl, rfl⟩ := List.cons.inj heq
        exact ⟨init, u, rfl, fun v hv => hinit v (List.mem_cons_of_mem _ hv)⟩
    | comment c h ih =>
      cases init with
      | nil => simp at heq
      | cons p init =>
        obtain ⟨rfl, rfl⟩ := List.cons.inj heq
        obtain ⟨init', v, rfl, hinit'⟩ :=
          ih hk init rfl fun v hv => hinit v (List.mem_cons_of_mem _ hv)
        exact ⟨.comment c :: init', v, rfl, by simpa using hinit'⟩

/-- What is left without the comments that wait is `Proper` again. -/
theorem flush (hS : S.Proper d) : S.flush.Proper d := by
  have hmem : ∀ p ∈ S.flush, p ∈ S := by
    intro p hp
    rw [← waiting_append_flush S]
    exact List.mem_append_right _ hp
  refine ⟨fun k t ht => hS.genuine k t (hmem _ ht), fun t ht => hS.line t (hmem _ ht),
    fun t ht => hS.block t (hmem _ ht), ?_⟩
  obtain ⟨init, u, rfl, hinit⟩ := hS.ends
  clear hS hmem
  induction init with
  | nil => exact ⟨[], u, rfl, by simp⟩
  | cons p init ih =>
    cases p with
    | token k t => exact ⟨_, u, rfl, hinit⟩
    | comment c => exact ih fun v hv => hinit v (List.mem_cons_of_mem _ hv)

/-- At the end, with no comments that wait, the mark of the end is all that is left: a `Proper`
tape has nothing after it. -/
theorem eq_end (hS : S.Proper d) (hk : S.kind = .eof) (hw : S.waiting = []) :
    S = [.token .eof ""] := by
  obtain ⟨init, t, rfl, hinit⟩ := hS.ends
  obtain rfl : t = "" := hS.genuine .eof t (by simp)
  cases init with
  | nil => rfl
  | cons p init =>
    cases p with
    | comment c => exact absurd hw (by simp [waiting])
    | token k u =>
      obtain rfl : k = .eof := hk
      exact absurd List.mem_cons_self (hinit u)

end Tape.Proper

namespace Reader

variable {d : Dialect} {r : Reader}

/-- The first token of `Reader.tape` is the current one. -/
@[simp] theorem kind_tape (r : Reader) : r.tape.kind = r.current.kind := by
  simp [tape, Tape.kind]

@[simp] theorem text_tape (r : Reader) : r.tape.text = r.current.text := by
  simp [tape, Tape.text]

/-- The comments that wait in a reader are those at the front of its tape, `Tape.waiting`. -/
@[simp] theorem waiting_tape (r : Reader) : r.tape.waiting = r.pending := by
  have h : ∀ (cs : List Comment) (k : TokenKind) (t : String) (S : Tape),
      Tape.waiting (cs.map .comment ++ .token k t :: S) = cs := by
    intro cs k t S
    induction cs with
    | nil => rfl
    | cons c cs ih => simpa [Tape.waiting] using ih
  exact h ..

/-- A reader without the comments that wait has the tape from the current token on,
`Tape.flush`. -/
@[simp] theorem tape_flushed (r : Reader) :
    Reader.tape { r with pending := [] } = r.tape.flush := by
  have h := Tape.waiting_append_flush r.tape
  rw [waiting_tape] at h
  exact (List.append_cancel_left h).symm

/-- Each word ahead is one token, so `Tape.tokens` bounds the depth of a grammar. -/
theorem tokens_tape (r : Reader) : r.tape.tokens = r.ahead.length + 1 := by
  have h : ∀ ws : List Word, Tape.tokens (ws.flatMap Word.pieces) = ws.length := by
    intro ws
    induction ws with
    | nil => rfl
    | cons w ws ih => simp [Word.pieces, Tape.tokens, ih]
  simp [tape, Tape.tokens, h]

/-- Before the end there are tokens ahead. -/
theorem ahead_ne_nil (hr : r.tape.Proper d) (hk : r.current.kind ≠ .eof) : r.ahead ≠ [] := by
  intro hnil
  obtain ⟨init, t, heq, -⟩ := hr.ends
  rw [tape, hnil, List.flatMap_nil] at heq
  have hlast := congrArg List.getLast? heq
  simp at hlast
  exact hk hlast.1

/-- Before the end, `Reader.next` takes the current token off the tape. -/
theorem takes_next (hr : r.tape.Proper d) (hk : r.current.kind ≠ .eof) :
    Takes r.tape r.current.kind r.current.text r.next.tape := by
  obtain ⟨w, ws, hw⟩ := List.exists_cons_of_ne_nil (ahead_ne_nil hr hk)
  have h := Takes.token r.current.kind r.current.text (r.ahead.flatMap Word.pieces)
  have h' := h.map_comment r.pending
  simpa [tape, next, hw, Word.pieces] using h'

/-- The converse of `takes_next`: a token that a tape takes is the current one of its reader. -/
theorem next_of_takes {k : TokenKind} {t : String} {S : Tape} (hr : r.tape.Proper d)
    (hk : k ≠ .eof) (h : Takes r.tape k t S) :
    r.current.kind = k ∧ r.current.text = t ∧ r.next.tape = S := by
  have hcur : r.current.kind = k := (kind_tape r).symm.trans h.kind_eq
  exact (takes_next hr (hcur ▸ hk)).unique h

end Reader

end Diglot

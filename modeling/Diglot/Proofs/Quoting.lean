import Diglot.Proofs.Scanning
import Diglot.Text.Quoted

/-!
# Quoted text can be read back

No two texts are the same between quotes. What stands for a character is the character itself, a
backslash and a letter, or a backslash and its number in braces. Which of these it is and where it
ends is seen from its first characters, so the characters of the text are found one after the other,
up to the closing quote.

- `Lexeme.append_inj_of_stops`: a run of characters of a class and what follows it.
- `Text.Escaped`: what stands for a character between quotes.
- `Text.quote_inj`: a text is found again from its quoted form.
- `Text.ne_lineFeed_of_mem_quote`: quoted text stays on its line.
-/

namespace Diglot

namespace Lexeme

/-- A text that does not go on with characters of the class `p`. -/
def Stops (p : Char → Bool) (rest : List Char) : Prop :=
  ∀ c, rest.head? = some c → p c = false

theorem stops_nil (p : Char → Bool) : Stops p [] :=
  nofun

theorem stops_cons {p : Char → Bool} {c : Char} (h : p c = false) (rest : List Char) :
    Stops p (c :: rest) := by
  intro e he
  obtain rfl : c = e := by simpa using he
  exact h

theorem stops_append {p : Char → Bool} {lead : String} (h : lead.toList.head?.map p = some false)
    (text : String) : Stops p (lead ++ text).toList := by
  obtain ⟨c, hc, hstop⟩ := Option.map_eq_some_iff.1 h
  obtain ⟨cs, hlead⟩ := List.head?_eq_some_iff.1 hc
  rw [String.toList_append, hlead, List.cons_append]
  exact stops_cons hstop _

/-- A run of characters of a class ends where the class `Stops`. -/
theorem takeWhile_append_of_stops {p : Char → Bool} {word rest : List Char}
    (hword : ∀ c ∈ word, p c = true) (hrest : Stops p rest) :
    (word ++ rest).takeWhile p = word := by
  rw [List.takeWhile_append_of_pos hword]
  cases rest with
  | nil => simp
  | cons c rest => simp [hrest c rfl]

/-- So a run and what follows it are found again from both together, if what follows `Stops` the
class. -/
theorem append_inj_of_stops {p : Char → Bool} {a b r s : List Char} (ha : ∀ c ∈ a, p c = true)
    (hb : ∀ c ∈ b, p c = true) (hr : Stops p r) (hs : Stops p s) (h : a ++ r = b ++ s) :
    a = b ∧ r = s := by
  have hab : a = b := by
    rw [← takeWhile_append_of_stops ha hr, h, takeWhile_append_of_stops hb hs]
  subst hab
  exact ⟨rfl, List.append_cancel_left h⟩

end Lexeme

open Lexeme

namespace Text

/-! ## Numbers in base sixteen -/

theorem isWordChar_digitChar : ∀ k < 16, isWordChar (Nat.digitChar k) = true := by
  decide

theorem digitChar_inj : ∀ j < 16, ∀ k < 16, Nat.digitChar j = Nat.digitChar k → j = k := by
  decide

/-- Digits are word characters, so the brace after a number `Stops` them. -/
theorem isWordChar_of_mem_toDigits {n : Nat} {c : Char} (h : c ∈ Nat.toDigits 16 n) :
    isWordChar c = true := by
  induction n using Nat.strongRecOn with
  | ind n ih =>
    rw [Nat.toDigits_eq_if (by decide)] at h
    by_cases hn : n < 16
    · rw [if_pos hn, List.mem_singleton] at h
      rw [h]
      exact isWordChar_digitChar n hn
    · rw [if_neg hn, List.mem_append, List.mem_singleton] at h
      rcases h with h | h
      · exact ih (n / 16) (by omega) h
      · rw [h]
        exact isWordChar_digitChar _ (Nat.mod_lt n (by decide))

/-- A number is told by its digits in base sixteen. The induction is on the number, one digit at
a time. -/
theorem toDigits_inj {m n : Nat} (h : Nat.toDigits 16 m = Nat.toDigits 16 n) : m = n := by
  induction m using Nat.strongRecOn generalizing n with
  | ind m ih =>
    rw [Nat.toDigits_eq_if (by decide), Nat.toDigits_eq_if (b := 16) (n := n) (by decide)] at h
    by_cases hm : m < 16 <;> by_cases hn : n < 16
    · rw [if_pos hm, if_pos hn] at h
      exact digitChar_inj m hm n hn (List.singleton_inj.1 h)
    · rw [if_pos hm, if_neg hn] at h
      simp [List.singleton_eq_append_iff, Nat.toDigits_ne_nil] at h
    · rw [if_neg hm, if_pos hn] at h
      simp [List.append_eq_singleton_iff, Nat.toDigits_ne_nil] at h
    · rw [if_neg hm, if_neg hn] at h
      obtain ⟨hquot, hrem⟩ := List.append_inj' h rfl
      have hdiv := ih (m / 16) (by omega) hquot
      have hmod := digitChar_inj _ (Nat.mod_lt m (by decide)) _ (Nat.mod_lt n (by decide))
        (List.singleton_inj.1 hrem)
      omega

/-! ## Single characters -/

/-- The characters with a letter of their own, each with that letter, as `escape` has them. -/
def letters : List (Char × Char) :=
  [('\x00', '0'), ('\t', 't'), ('\r', 'r'), ('\n', 'n'), ('\x22', '\x22'), ('\\', '\\')]

/-- What stands for a character between quotes. -/
inductive Escaped : Char → List Char → Prop
  | self {c : Char} (h : ∀ x, (c, x) ∉ letters) : Escaped c [c]
  | letter {c x : Char} (h : (c, x) ∈ letters) : Escaped c ['\\', x]
  | number (c : Char) : Escaped c ('\\' :: 'u' :: '\x7b' :: (Nat.toDigits 16 c.toNat ++ ['\x7d']))

/-- What `escape` gives is one of the three forms of `Escaped`. -/
theorem escaped_escape (c : Char) : Escaped c (escape c).toList := by
  unfold escape
  split
  · exact .letter (by decide)
  · exact .letter (by decide)
  · exact .letter (by decide)
  · exact .letter (by decide)
  · exact .letter (by decide)
  · exact .letter (by decide)
  · split
    · rw [String.toList_singleton]
      exact .self (by simp_all [letters])
    · simp only [codePoint, hexDigits, String.toList_append, String.toList_ofList]
      exact .number c

/-- Two characters with one letter are the same. -/
theorem eq_of_mem_letters {c c' x : Char} (h : (c, x) ∈ letters) (h' : (c', x) ∈ letters) :
    c = c' := by
  have hall : ∀ a ∈ letters, ∀ b ∈ letters, a.2 = b.2 → a.1 = b.1 := by decide
  exact hall _ h _ h' rfl

/-- A character without a letter of its own is neither a backslash nor a quote nor a line feed,
so its form is not taken for another one. -/
theorem ne_of_not_mem_letters {c : Char} (h : ∀ x, (c, x) ∉ letters) :
    c ≠ '\\' ∧ c ≠ '\x22' ∧ c ≠ '\n' := by
  refine ⟨?_, ?_, ?_⟩ <;> rintro rfl
  · exact h '\\' (by decide)
  · exact h '\x22' (by decide)
  · exact h 'n' (by decide)

theorem letter_ne_u {c x : Char} (h : (c, x) ∈ letters) : x ≠ 'u' := by
  have hall : ∀ a ∈ letters, a.2 ≠ 'u' := by decide
  exact hall _ h

namespace Escaped

variable {c c' : Char} {w w' : List Char}

/-- What stands for a character is found again before any text, and so is the character: the
forms of `Escaped` part in their first two characters. -/
theorem append_inj {r r' : List Char} (h : Escaped c w) (h' : Escaped c' w')
    (heq : w ++ r = w' ++ r') : c = c' ∧ r = r' := by
  cases h with
  | self hc =>
    have hslash := (ne_of_not_mem_letters hc).1
    cases h' with
    | self _ => simpa using heq
    | letter _ => exact absurd (List.cons.inj heq).1 hslash
    | number => exact absurd (List.cons.inj heq).1 hslash
  | letter hc =>
    cases h' with
    | self hc' => exact absurd (List.cons.inj heq).1.symm (ne_of_not_mem_letters hc').1
    | letter hc' =>
      obtain ⟨rfl, rfl⟩ := List.cons.inj (List.cons.inj heq).2
      exact ⟨eq_of_mem_letters hc hc', rfl⟩
    | number => exact absurd (List.cons.inj (List.cons.inj heq).2).1 (letter_ne_u hc)
  | number =>
    cases h' with
    | self hc' => exact absurd (List.cons.inj heq).1.symm (ne_of_not_mem_letters hc').1
    | letter hc' => exact absurd (List.cons.inj (List.cons.inj heq).2).1.symm (letter_ne_u hc')
    | number =>
      -- the digits end at the brace
      have hdigits : Nat.toDigits 16 c.toNat ++ '\x7d' :: r =
          Nat.toDigits 16 c'.toNat ++ '\x7d' :: r' := by
        simpa using heq
      obtain ⟨hnumber, hrest⟩ := append_inj_of_stops (fun _ => isWordChar_of_mem_toDigits)
        (fun _ => isWordChar_of_mem_toDigits) (stops_cons (by decide) _) (stops_cons (by decide) _)
        hdigits
      exact ⟨Char.toNat_inj.1 (toDigits_inj hnumber), (List.cons.inj hrest).2⟩

/-- What stands for a character does not begin with the closing quote. -/
theorem head?_ne (h : Escaped c w) : ∃ e es, w = e :: es ∧ e ≠ '\x22' := by
  cases h with
  | self hc => exact ⟨c, [], rfl, (ne_of_not_mem_letters hc).2.1⟩
  | letter _ => exact ⟨'\\', _, rfl, by decide⟩
  | number => exact ⟨'\\', _, rfl, by decide⟩

theorem ne_lineFeed (h : Escaped c w) : ∀ e ∈ w, e ≠ '\n' := by
  cases h with
  | self hc => simpa using (ne_of_not_mem_letters hc).2.2
  | letter hc =>
    have hall : ∀ a ∈ letters, a.2 ≠ '\n' := by decide
    simpa using hall _ hc
  | number =>
    have hdigits : ∀ e ∈ Nat.toDigits 16 c.toNat, e ≠ '\n' := by
      rintro _ he rfl
      exact absurd (isWordChar_of_mem_toDigits he) (by decide)
    simpa [or_imp, forall_and] using hdigits

end Escaped

/-! ## Whole texts -/

theorem toList_quote (text : String) :
    (quote text).toList =
      '\x22' :: (text.toList.flatMap (fun c => (escape c).toList) ++ ['\x22']) := by
  simp only [quote, String.toList_append, String.toList_join, List.flatMap_map]
  rfl

/-- The characters of a text are found again from what `escape` makes of them, up to a quote. -/
theorem eq_of_flatMap_escape {cs cs' : List Char}
    (h : cs.flatMap (fun c => (escape c).toList) ++ ['\x22'] =
      cs'.flatMap (fun c => (escape c).toList) ++ ['\x22']) : cs = cs' := by
  induction cs generalizing cs' with
  | nil =>
    cases cs' with
    | nil => rfl
    | cons c' cs' =>
      obtain ⟨e, es, he, hne⟩ := (escaped_escape c').head?_ne
      simp only [List.flatMap_cons, he] at h
      exact absurd (List.cons.inj h).1.symm hne
  | cons c cs ih =>
    cases cs' with
    | nil =>
      obtain ⟨e, es, he, hne⟩ := (escaped_escape c).head?_ne
      simp only [List.flatMap_cons, he] at h
      exact absurd (List.cons.inj h).1 hne
    | cons c' cs' =>
      simp only [List.flatMap_cons, List.append_assoc] at h
      obtain ⟨rfl, hrest⟩ := (escaped_escape c).append_inj (escaped_escape c') h
      rw [ih hrest]

/-- A text is found again from its quoted form: `quote` is injective. -/
theorem quote_inj {text text' : String} (h : quote text = quote text') : text = text' := by
  have hlist := congrArg String.toList h
  rw [toList_quote, toList_quote] at hlist
  exact String.toList_inj.1 (eq_of_flatMap_escape (List.cons.inj hlist).2)

/-- What `quote` gives stays on its line. -/
theorem ne_lineFeed_of_mem_quote {text : String} : ∀ c ∈ (quote text).toList, c ≠ '\n' := by
  rw [toList_quote]
  simp only [List.mem_cons, List.mem_append, List.mem_flatMap, List.not_mem_nil, or_false]
  rintro c (rfl | ⟨e, -, hc⟩ | rfl)
  · decide
  · exact (escaped_escape e).ne_lineFeed c hc
  · decide

end Text

end Diglot

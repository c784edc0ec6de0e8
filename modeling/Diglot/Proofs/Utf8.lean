import Diglot.Text.Utf8
import Mathlib.Algebra.Group.Nat.Defs
import Mathlib.Data.List.Basic

/-!
# Reading bytes

Bytes are read as characters and broken parts, which together are all of the bytes. What is read as
a character is its encoding, so bytes without a broken part are those of one text, and the text is
shown as it is. Broken parts are shown alike, whatever they are.

- `Pending.Fits`, `Pending.Begun`: what a pending character can become, and what it has been read
  from.
- `Decoded`: bytes cut into characters and broken parts.
- `decoded_decode`: `decode` cuts its bytes into characters and broken parts.
- `decode_bytes`, `shown_bytes`: the bytes of a text are read as its characters.
- `ofBytes?_eq_some_iff`: `ofBytes?` reads the bytes of texts and refuses all others.
-/

namespace Diglot.Text

/-! ## Encodings -/

/-- The bytes of a number after its first byte: six bits in each. -/
def continuation : Nat → Nat → Bytes
  | 0, _ => []
  | n + 1, v => UInt8.ofNat (v / 64 ^ n % 64 + 0x80) :: continuation n v

section Encoding

variable {b : UInt8} {c : Char} {n v : Nat}

theorem toNat_ofNat_of_isValidChar (h : v.isValidChar) : (Char.ofNat v).toNat = v := by
  rw [Char.ofNat, dif_pos h]
  rfl

/-- The characters below `0x80` are bytes of their own. -/
theorem encode_of_lt (h : c.toNat < 0x80) :
    String.utf8EncodeChar c = [UInt8.ofNat c.toNat] := by
  simp only [String.utf8EncodeChar, Char.toNat_val]
  rw [if_pos (Nat.le_of_lt_succ h)]

/-- The encoding of any other character: its first bits, then a `continuation`. -/
theorem encode_of_le (h : 0x80 ≤ c.toNat) :
    String.utf8EncodeChar c =
      if c.toNat < 0x800 then UInt8.ofNat (c.toNat / 64 ^ 1 + 0xC0) :: continuation 1 c.toNat
      else if c.toNat < 0x10000 then
        UInt8.ofNat (c.toNat / 64 ^ 2 + 0xE0) :: continuation 2 c.toNat
      else UInt8.ofNat (c.toNat / 64 ^ 3 + 0xF0) :: continuation 3 c.toNat := by
  have hmax : c.toNat < 0x110000 := by
    have hvalid : c.toNat < 0xd800 ∨ 0xdfff < c.toNat ∧ c.toNat < 0x110000 := c.valid
    omega
  -- the library masks the first byte, which changes nothing within the range
  simp only [String.utf8EncodeChar, Char.toNat_val]
  rw [if_neg (by omega)]
  by_cases htwo : c.toNat < 0x800
  · rw [if_pos htwo, if_pos (Nat.le_of_lt_succ htwo)]
    have hfirst : c.toNat / 64 % 0x20 = c.toNat / 64 := Nat.mod_eq_of_lt (by omega)
    simp [continuation, hfirst]
  rw [if_neg htwo, if_neg (by omega)]
  by_cases hthree : c.toNat < 0x10000
  · rw [if_pos hthree, if_pos (Nat.le_of_lt_succ hthree)]
    have hfirst : c.toNat / 4096 % 0x10 = c.toNat / 4096 := Nat.mod_eq_of_lt (by omega)
    simp [continuation, hfirst]
  · rw [if_neg hthree, if_neg (by omega)]
    have hfirst : c.toNat / 262144 % 8 = c.toNat / 262144 := Nat.mod_eq_of_lt (by omega)
    simp [continuation, hfirst]

/-- The bytes of a `continuation` are `0x80` or more, so they are not taken for characters. -/
theorem le_of_mem_continuation (h : b ∈ continuation n v) : 0x80 ≤ b.toNat := by
  induction n with
  | zero => simp [continuation] at h
  | succ n ih =>
    rcases List.mem_cons.1 h with rfl | h
    · rw [UInt8.toNat_ofNat']
      omega
    · exact ih h

/-- A byte below `0x80` is in no encoding but its own. -/
theorem encode_eq_singleton (h : b ∈ String.utf8EncodeChar c) (hb : b.toNat < 0x80) :
    String.utf8EncodeChar c = [b] := by
  by_cases hone : c.toNat < 0x80
  · rw [encode_of_lt hone] at h ⊢
    rw [List.mem_singleton.1 h]
  · -- the bytes of a longer encoding are all `0x80` or above
    have hlong {x k v : Nat} (hlow : 0x80 ≤ x) (hhigh : x < 256) :
        b ∉ UInt8.ofNat x :: continuation k v := by
      intro hmem
      rcases List.mem_cons.1 hmem with rfl | hmem
      · rw [UInt8.toNat_ofNat_of_lt' hhigh] at hb
        omega
      · exact absurd hb (Nat.not_lt.2 (le_of_mem_continuation hmem))
    have hvalid : c.toNat < 0xd800 ∨ 0xdfff < c.toNat ∧ c.toNat < 0x110000 := c.valid
    rw [encode_of_le (Nat.not_lt.1 hone)] at h
    split at h
    · exact absurd h (hlong (by omega) (by omega))
    split at h
    · exact absurd h (hlong (by omega) (by omega))
    · exact absurd h (hlong (by omega) (by omega))

/-- What the next six bits add to the bits before them. -/
theorem div_pow_eq (v n : Nat) : v / 64 ^ (n + 1) * 64 + v / 64 ^ n % 64 = v / 64 ^ n := by
  rw [Nat.pow_succ, ← Nat.div_div_eq_div_mul]
  omega

end Encoding

/-! ## Pending characters -/

/-- `p.Fits v`: the bits read so far are the first ones of `v`, and the next byte of `v` is within
the bounds of `p`. -/
structure Pending.Fits (p : Pending) (v : Nat) : Prop where
  bits : v / 64 ^ (p.later + 1) = p.bits
  low : p.low ≤ v / 64 ^ p.later % 64 + 0x80
  high : v / 64 ^ p.later % 64 + 0x80 ≤ p.high

/-- `p.Opens k least base n`: the byte `n` leaves `p` pending, and `k` more bytes follow. What fits
are the characters from `least` on whose first bits, added to `base`, are `n`. -/
structure Pending.Opens (p : Pending) (k least base n : Nat) : Prop where
  lead : lead n = ([], some p)
  later : p.later + 1 = k
  low : 0x80 ≤ p.low
  high : p.high ≤ 0xBF
  fits : ∀ v, p.Fits v ↔ least ≤ v ∧ v.isValidChar ∧ v / 64 ^ k + base = n

section Lead

variable {n : Nat}

/-- The first byte of two. Any byte of a `continuation` may be the second one. -/
theorem exists_opens_one (hlow : 0xC2 ≤ n) (hhigh : n < 0xE0) :
    ∃ p : Pending, p.Opens 1 0x80 0xC0 n := by
  refine ⟨_, by rw [lead, if_neg (by omega), if_neg (by omega), if_pos hhigh], rfl, by simp,
    by simp, fun v => ⟨?_, ?_⟩⟩
  · rintro ⟨hbits, -, -⟩
    simp only [Nat.reduceAdd, Nat.pow_one] at hbits ⊢
    unfold Nat.isValidChar
    omega
  · rintro ⟨hleast, -, hfirst⟩
    constructor <;> simp only [Nat.reduceAdd, Nat.pow_zero, Nat.pow_one] at * <;> omega

/-- The bounds for the second byte of three are those of `0x800`, and of the first surrogate, as
`lead` has them. -/
theorem exists_opens_two (hlow : 0xE0 ≤ n) (hhigh : n < 0xF0) :
    ∃ p : Pending, p.Opens 2 0x800 0xE0 n := by
  refine ⟨_, by rw [lead, if_neg (by omega), if_neg (by omega), if_neg (by omega), if_pos hhigh],
    rfl, by grind, by grind, fun v => ⟨?_, ?_⟩⟩
  · rintro ⟨hbits, hleast, hsurrogate⟩
    simp only [Nat.reduceAdd, Nat.reducePow, Nat.pow_one] at hbits hleast hsurrogate ⊢
    unfold Nat.isValidChar
    split at hleast <;> split at hsurrogate <;> omega
  · rintro ⟨hleast, hvalid, hfirst⟩
    unfold Nat.isValidChar at hvalid
    constructor <;> simp only [Nat.reduceAdd, Nat.reducePow, Nat.pow_one] at * <;> grind

/-- The bounds for the second byte of four are those of `0x10000`, and of the last character. -/
theorem exists_opens_three (hlow : 0xF0 ≤ n) (hhigh : n < 0xF5) :
    ∃ p : Pending, p.Opens 3 0x10000 0xF0 n := by
  refine ⟨_, by rw [lead, if_neg (by omega), if_neg (by omega), if_neg (by omega),
    if_neg (by omega), if_pos hhigh], rfl, by grind, by grind, fun v => ⟨?_, ?_⟩⟩
  · rintro ⟨hbits, hleast, hlast⟩
    simp only [Nat.reduceAdd, Nat.reducePow] at hbits hleast hlast ⊢
    unfold Nat.isValidChar
    split at hleast <;> split at hlast <;> omega
  · rintro ⟨hleast, hvalid, hfirst⟩
    unfold Nat.isValidChar at hvalid
    constructor <;> simp only [Nat.reduceAdd, Nat.reducePow] at * <;> grind

end Lead

/-- `p.Begun t`: the bytes `t` have been read, and whatever fits `p` is a character that begins with
them. -/
structure Pending.Begun (p : Pending) (t : Bytes) : Prop where
  ne_nil : t ≠ []
  low : 0x80 ≤ p.low
  high : p.high ≤ 0xBF
  valid : ∀ v, p.Fits v → v.isValidChar
  encode : ∀ c : Char, p.Fits c.toNat →
    String.utf8EncodeChar c = t ++ continuation (p.later + 1) c.toNat

section Pending

variable {p q : Pending} {t bs : Bytes} {b : UInt8} {c : Char} {k least base v : Nat}

/-- A first byte is what a pending character is `Begun` with. -/
theorem Pending.Opens.begun (h : p.Opens k least base b.toNat)
    (hencode : ∀ c : Char, least ≤ c.toNat → c.toNat / 64 ^ k + base = b.toNat →
      String.utf8EncodeChar c = UInt8.ofNat (c.toNat / 64 ^ k + base) :: continuation k c.toNat) :
    p.Begun [b] where
  ne_nil := by simp
  low := h.low
  high := h.high
  valid v hv := ((h.fits v).1 hv).2.1
  encode c hc := by
    obtain ⟨hleast, -, hfirst⟩ := (h.fits _).1 hc
    rw [hencode c hleast hfirst, hfirst, UInt8.ofNat_toNat, h.later]
    rfl

/-- What a byte can be where a character begins: a character of its own, the first byte of a
longer one, or broken. The cases are those of `lead`. -/
theorem lead_cases (b : UInt8) :
    (∃ c, lead b.toNat = ([some c], none) ∧ String.utf8EncodeChar c = [b]) ∨
    (∃ p, lead b.toNat = ([], some p) ∧ p.Begun [b]) ∨ lead b.toNat = ([none], none) := by
  -- the ranges of a first byte, in the order in which `lead` asks for them
  by_cases hone : b.toNat < 0x80
  · have hvalid : b.toNat.isValidChar := by
      left
      omega
    have hnat := toNat_ofNat_of_isValidChar hvalid
    refine .inl ⟨Char.ofNat b.toNat, by rw [lead, if_pos hone], ?_⟩
    rw [encode_of_lt (by omega), hnat, UInt8.ofNat_toNat]
  by_cases hbroken : b.toNat < 0xC2
  · exact .inr (.inr (by rw [lead, if_neg hone, if_pos hbroken]))
  by_cases htwo : b.toNat < 0xE0
  · obtain ⟨p, hp⟩ := exists_opens_one (Nat.not_lt.1 hbroken) htwo
    refine .inr (.inl ⟨p, hp.lead, hp.begun fun c hleast hfirst => ?_⟩)
    rw [encode_of_le hleast, if_pos (by omega)]
  by_cases hthree : b.toNat < 0xF0
  · obtain ⟨p, hp⟩ := exists_opens_two (Nat.not_lt.1 htwo) hthree
    refine .inr (.inl ⟨p, hp.lead, hp.begun fun c hleast hfirst => ?_⟩)
    rw [encode_of_le (by omega), if_neg (by omega), if_pos (by omega)]
  by_cases hfour : b.toNat < 0xF5
  · obtain ⟨p, hp⟩ := exists_opens_three (Nat.not_lt.1 hthree) hfour
    refine .inr (.inl ⟨p, hp.lead, hp.begun fun c hleast hfirst => ?_⟩)
    rw [encode_of_le (by omega), if_neg (by omega), if_neg (by omega)]
  · refine .inr (.inr ?_)
    rw [lead, if_neg hone, if_neg hbroken, if_neg htwo, if_neg hthree, if_neg hfour]

/-- The next byte of a pending character: it ends the character, leaves it pending, or is out of
bounds, and then `lead` is asked about it. -/
theorem Pending.Begun.step_cases (h : p.Begun t) (b : UInt8) :
    (∃ c, p.step b.toNat = ([some c], none) ∧ String.utf8EncodeChar c = t ++ [b]) ∨
    (∃ q, p.step b.toNat = ([], some q) ∧ q.Begun (t ++ [b])) ∨
    p.step b.toNat = (none :: (lead b.toNat).1, (lead b.toNat).2) := by
  by_cases hbounds : p.low ≤ b.toNat ∧ b.toNat ≤ p.high
  · -- the next six bits of a number that goes on with `b` are those of `b`
    have hfits {v : Nat} (hv : v / 64 ^ p.later = p.bits * 64 + (b.toNat - 0x80)) :
        p.Fits v ∧ UInt8.ofNat (v / 64 ^ p.later % 64 + 0x80) = b := by
      have hdiv := div_pow_eq v p.later
      have hlow := h.low
      have hhigh := h.high
      have hbyte : v / 64 ^ p.later % 64 + 0x80 = b.toNat := by omega
      refine ⟨⟨by omega, by omega, by omega⟩, ?_⟩
      rw [hbyte, UInt8.ofNat_toNat]
    have hencode {c : Char} (hc : c.toNat / 64 ^ p.later = p.bits * 64 + (b.toNat - 0x80)) :
        String.utf8EncodeChar c = t ++ [b] ++ continuation p.later c.toNat := by
      obtain ⟨hpending, hbyte⟩ := hfits hc
      rw [h.encode c hpending, continuation, hbyte, List.append_assoc, List.singleton_append]
    obtain ⟨bits, later, low, high⟩ := p
    cases later with
    | zero =>
      have hvalid := h.valid _ (hfits (Nat.div_one _)).1
      refine .inl ⟨_, by rw [step, if_pos hbounds], ?_⟩
      rw [hencode (by rw [toNat_ofNat_of_isValidChar hvalid]; exact Nat.div_one _)]
      exact List.append_nil _
    | succ later =>
      refine .inr (.inl ⟨_, by rw [step, if_pos hbounds], ?_⟩)
      exact ⟨by simp, Nat.le_refl _, Nat.le_refl _, fun v hv => h.valid v (hfits hv.bits).1,
        fun c hc => hencode hc.bits⟩
  · exact .inr (.inr (by rw [step, if_neg hbounds]))

/-- The next byte of a number that `Fits` brings a pending character one byte closer to it. -/
theorem Pending.Fits.step_eq (h : p.Fits v) : p.step (v / 64 ^ p.later % 64 + 0x80) =
    match p.later with
    | 0 => ([some (Char.ofNat v)], none)
    | later + 1 =>
      ([], some { bits := v / 64 ^ (later + 1), later, low := 0x80, high := 0xBF }) := by
  rw [step, if_pos ⟨h.low, h.high⟩, Nat.add_sub_cancel, ← h.bits, div_pow_eq]
  cases p.later with
  | zero => simp only [Nat.pow_zero, Nat.div_one]
  | succ later => rfl

/-- A pending character that `Fits` a number is read on to the end of the number. -/
theorem decode_continuation (hp : p.Fits v) (bs : Bytes) :
    decode (some p) (continuation (p.later + 1) v ++ bs) =
      some (Char.ofNat v) :: decode none bs := by
  have hbyte (x : Nat) : (UInt8.ofNat (x % 64 + 0x80)).toNat = x % 64 + 0x80 := by
    rw [UInt8.toNat_ofNat']
    omega
  induction hlater : p.later generalizing p with
  | zero =>
    have hstep := hp.step_eq
    rw [hlater] at hstep
    rw [continuation, List.cons_append, decode, hbyte, hstep]
    rfl
  | succ later ih =>
    have hstep := hp.step_eq
    rw [hlater] at hstep
    rw [continuation, List.cons_append, decode, hbyte, hstep]
    refine ih ⟨rfl, Nat.le_add_left _ _, ?_⟩ rfl
    exact Nat.add_le_add_right (Nat.le_of_lt_succ (Nat.mod_lt _ (by decide))) 0x80

/-- A first byte and the `continuation` after it are read as the character. -/
theorem Pending.Opens.decode_encode (h : p.Opens k least base (c.toNat / 64 ^ k + base))
    (hleast : least ≤ c.toNat) (hfirst : c.toNat / 64 ^ k + base < 256) (bs : Bytes) :
    decode none (UInt8.ofNat (c.toNat / 64 ^ k + base) :: continuation k c.toNat ++ bs)
      = some c :: decode none bs := by
  have hfits : p.Fits c.toNat := (h.fits _).2 ⟨hleast, c.valid, rfl⟩
  have hbyte : (UInt8.ofNat (c.toNat / 64 ^ k + base)).toNat = c.toNat / 64 ^ k + base :=
    UInt8.toNat_ofNat_of_lt' hfirst
  have hrest := decode_continuation hfits bs
  rw [h.later, Char.ofNat_toNat] at hrest
  rw [List.cons_append, decode, hbyte, h.lead, hrest]
  rfl

/-- The encoding of a character is read by `decode` as the character. -/
theorem decode_encode (c : Char) (bs : Bytes) :
    decode none (String.utf8EncodeChar c ++ bs) = some c :: decode none bs := by
  have hvalid : c.toNat < 0xd800 ∨ 0xdfff < c.toNat ∧ c.toNat < 0x110000 := c.valid
  by_cases hone : c.toNat < 0x80
  · have hbyte : (UInt8.ofNat c.toNat).toNat = c.toNat := by
      rw [UInt8.toNat_ofNat']
      omega
    rw [encode_of_lt hone, List.singleton_append, decode, hbyte, lead, if_pos hone,
      Char.ofNat_toNat]
    rfl
  rw [encode_of_le (Nat.not_lt.1 hone)]
  split
  · obtain ⟨p, hp⟩ := exists_opens_one (n := c.toNat / 64 ^ 1 + 0xC0) (by omega) (by omega)
    exact hp.decode_encode (by omega) (by omega) bs
  split
  · obtain ⟨p, hp⟩ := exists_opens_two (n := c.toNat / 64 ^ 2 + 0xE0) (by omega) (by omega)
    exact hp.decode_encode (by omega) (by omega) bs
  · obtain ⟨p, hp⟩ := exists_opens_three (n := c.toNat / 64 ^ 3 + 0xF0) (by omega) (by omega)
    exact hp.decode_encode (by omega) (by omega) bs

end Pending

/-! ## Characters and broken parts -/

/-- Bytes cut into characters, each in its encoding, and broken parts. -/
inductive Decoded : Bytes → List (Option Char) → Prop where
  | nil : Decoded [] []
  | char (c : Char) {bs : Bytes} {os : List (Option Char)} (h : Decoded bs os) :
      Decoded (String.utf8EncodeChar c ++ bs) (some c :: os)
  | broken {part bs : Bytes} {os : List (Option Char)} (hpart : part ≠ []) (h : Decoded bs os) :
      Decoded (part ++ bs) (none :: os)

section Decoded

variable {bs : Bytes} {os : List (Option Char)} {c : Char} {s : String}

/-- `decode` cuts bytes into characters and broken parts, and leaves nothing out. -/
theorem decoded_decode (bs : Bytes) : Decoded bs (decode none bs) := by
  suffices h : Decoded bs (decode none bs) ∧ ∀ (p : Pending) (t : Bytes), p.Begun t →
      Decoded (t ++ bs) (decode (some p) bs) from h.1
  -- with a character pending, the bytes that it has been read from come first
  induction bs with
  | nil => exact ⟨.nil, fun p t hp => .broken hp.ne_nil .nil⟩
  | cons b bs ih =>
    obtain ⟨hnone, hsome⟩ := ih
    have hlead : Decoded (b :: bs) (decode none (b :: bs)) := by
      rw [decode]
      rcases lead_cases b with ⟨c, hlead, hc⟩ | ⟨p, hlead, hp⟩ | hlead
      · rw [hlead]
        simpa [hc] using hnone.char c
      · rw [hlead]
        exact hsome p [b] hp
      · rw [hlead]
        exact hnone.broken (List.cons_ne_nil b [])
    refine ⟨hlead, fun p t hp => ?_⟩
    rw [decode]
    rcases hp.step_cases b with ⟨c, hstep, hc⟩ | ⟨q, hstep, hq⟩ | hstep
    · rw [hstep]
      simpa [hc] using hnone.char c
    · rw [hstep]
      simpa using hsome q (t ++ [b]) hq
    · rw [hstep]
      rw [decode] at hlead
      exact hlead.broken hp.ne_nil

/-- What has no broken part is the encoding of its characters, so `Decoded` tells the bytes
then. -/
theorem Decoded.eq_encode (h : Decoded bs os) (hwhole : none ∉ os) :
    bs = os.flatMap fun o => String.utf8EncodeChar (o.getD replacement) := by
  induction h with
  | nil => rfl
  | char c h ih =>
    rw [List.mem_cons, not_or] at hwhole
    rw [List.flatMap_cons, ← ih hwhole.2]
    rfl
  | broken hpart h ih => simp at hwhole

/-- A character that has been read stands in the bytes of `Decoded`. -/
theorem Decoded.subset_of_mem (h : Decoded bs os) (hc : some c ∈ os) :
    String.utf8EncodeChar c ⊆ bs := by
  induction h with
  | nil => simp at hc
  | char c' h ih =>
    rcases List.mem_cons.1 hc with hc | hc
    · obtain rfl := Option.some.inj hc
      exact List.subset_append_left _ _
    · exact List.Subset.trans (ih hc) (List.subset_append_right _ _)
  | broken hpart h ih =>
    rcases List.mem_cons.1 hc with hc | hc
    · cases hc
    · exact List.Subset.trans (ih hc) (List.subset_append_right _ _)

theorem Decoded.eq_nil_iff (h : Decoded bs os) : os = [] ↔ bs = [] := by
  cases h with
  | nil => simp
  | char c h => simp [String.utf8EncodeChar_ne_nil]
  | broken hpart h => simp [hpart]

end Decoded

/-! ## Texts -/

section Texts

variable {b : UInt8} {bs : Bytes} {s t : String}

@[simp] theorem bytes_append (s t : String) : bytes (s ++ t) = bytes s ++ bytes t := by
  simp [bytes]

/-- The `bytes` of a text are read as its characters. -/
theorem decode_bytes (s : String) : decode none (bytes s) = s.toList.map some := by
  unfold bytes
  induction s.toList with
  | nil => rfl
  | cons c cs ih => rw [List.flatMap_cons, decode_encode, ih, List.map_cons]

/-- A text is `shown` as it is. -/
@[simp] theorem shown_bytes (s : String) : shown (bytes s) = s := by
  simp [shown, decode_bytes, Function.comp_def]

theorem bytes_injective : Function.Injective bytes :=
  Function.LeftInverse.injective shown_bytes

@[simp] theorem bytes_inj : bytes s = bytes t ↔ s = t :=
  bytes_injective.eq_iff

/-- `ofBytes?` reads the bytes of a text as the text, and refuses all other bytes. -/
theorem ofBytes?_eq_some_iff : ofBytes? bs = some s ↔ bs = bytes s := by
  constructor
  · intro h
    unfold ofBytes? at h
    split at h
    · cases h
    · next hwhole =>
      obtain rfl := Option.some.inj h
      rw [bytes, shown, String.toList_ofList, List.flatMap_map]
      exact (decoded_decode bs).eq_encode hwhole
  · rintro rfl
    rw [ofBytes?, shown_bytes, decode_bytes, if_neg (by simp)]

/-- The `replacement` of broken parts has no byte below `0x80`, so such a byte is shown only
where it is. -/
theorem mem_of_mem_bytes_shown (h : b ∈ bytes (shown bs)) (hb : b.toNat < 0x80) : b ∈ bs := by
  rw [bytes, shown, String.toList_ofList, List.flatMap_map] at h
  obtain ⟨o, ho, hmem⟩ := List.mem_flatMap.1 h
  have hencode := encode_eq_singleton hmem hb
  cases o with
  | none =>
    have hlength : (String.utf8EncodeChar replacement).length = 1 := congrArg List.length hencode
    exact absurd hlength (by decide)
  | some c =>
    have hsubset := (decoded_decode bs).subset_of_mem ho
    exact hsubset hmem

/-- Bytes show, if there are any. -/
theorem bytes_shown_eq_nil_iff : bytes (shown bs) = [] ↔ bs = [] := by
  rw [← (decoded_decode bs).eq_nil_iff, bytes, shown, String.toList_ofList, List.flatMap_map]
  cases decode none bs with
  | nil => simp
  | cons o os => simp [String.utf8EncodeChar_ne_nil]

end Texts

end Diglot.Text

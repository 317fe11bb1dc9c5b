/-
AssetAudit/Proofs/Decoding.lean

UTF-8 read and written.

A number is spelled by a first byte and continuation bytes, the digits of the
number to the base 64 (`continuation`).  The reader, with a spelling open, has
read the front part of the spellings of a range of numbers, all of them numbers
of characters (`Pending.Opens`).  This holds after a first byte
(`opens_of_start`) and is kept by each byte that follows (`Pending.Opens.push`).
So what the reader takes for a character is its spelling, and a malformed piece
holds no byte of ASCII (`read_cases`); in the other direction every spelling is
read as its character (`read_encodeChar`).

What follows from this, for texts as a whole:

* `decode?_eq_some_iff` — what is well formed is what a text is written as;
* `decodeLossy_append_ascii` — a byte of ASCII stands for itself, whatever is
  around it;
* `exists_byte_of_mem` — a character of ASCII comes from such a byte;
* `suffix_decodeLossy_iff`, `head?_decodeLossy_iff` — a text of ASCII comes from
  such bytes, also at the end of another, and a character of ASCII at the front.
-/
import AssetAudit.Text.Utf8
import Mathlib.Algebra.Group.Nat.Defs

namespace AssetAudit.Utf8

/-! ### Spellings -/

/-- The last `k` bytes of the spelling of a number. -/
def continuation : (k v : Nat) → Bytes
  | 0, _ => []
  | k + 1, v => UInt8.ofNat (v / 64 ^ k % 64 + 0x80) :: continuation k v

theorem toNat_ofNat {v : Nat} (h : v.isValidChar) : (Char.ofNat v).toNat = v := by
  rw [Char.ofNat, dif_pos h]
  rfl

theorem toNat_of_lt {n : Nat} (h : n < 256) : (UInt8.ofNat n).toNat = n := by
  rw [UInt8.toNat_ofNat']
  exact Nat.mod_eq_of_lt h

theorem ofNat_eq {n : Nat} {b : UInt8} (h : n = b.toNat) : UInt8.ofNat n = b := by
  rw [h, UInt8.ofNat_toNat]

theorem utf8EncodeChar_eq (c : Char) :
    String.utf8EncodeChar c =
      if c.toNat ≤ 0x7F then [UInt8.ofNat c.toNat]
      else if c.toNat ≤ 0x7FF then
        UInt8.ofNat (c.toNat / 64 % 32 + 0xC0) :: continuation 1 c.toNat
      else if c.toNat ≤ 0xFFFF then
        UInt8.ofNat (c.toNat / 4096 % 16 + 0xE0) :: continuation 2 c.toNat
      else UInt8.ofNat (c.toNat / 262144 % 8 + 0xF0) :: continuation 3 c.toNat := by
  simp only [continuation, Nat.pow_zero, Nat.pow_one, Nat.div_one]
  rfl

/-- A character of ASCII is spelled by the byte of its number. -/
theorem encodeChar_ascii {c : Char} (h : c.toNat < 0x80) :
    String.utf8EncodeChar c = [UInt8.ofNat c.toNat] := by
  rw [utf8EncodeChar_eq, if_pos (Nat.le_of_lt_succ h)]

theorem continuation_high {k v : Nat} : ∀ b ∈ continuation k v, 0x80 ≤ b.toNat := by
  induction k with
  | zero => exact fun b hb => absurd hb List.not_mem_nil
  | succ k ih =>
    refine List.forall_mem_cons.mpr ⟨?_, ih⟩
    rw [toNat_of_lt (by omega)]
    omega

/-- Other characters are spelled without any byte of ASCII. -/
theorem encodeChar_high {c : Char} (h : 0x80 ≤ c.toNat) :
    ∀ b ∈ String.utf8EncodeChar c, 0x80 ≤ b.toNat := by
  rw [utf8EncodeChar_eq, if_neg (Nat.not_le_of_lt h)]
  split
  · refine List.forall_mem_cons.mpr ⟨?_, continuation_high⟩
    rw [toNat_of_lt (by omega)]
    omega
  split
  · refine List.forall_mem_cons.mpr ⟨?_, continuation_high⟩
    rw [toNat_of_lt (by omega)]
    omega
  · refine List.forall_mem_cons.mpr ⟨?_, continuation_high⟩
    rw [toNat_of_lt (by omega)]
    omega

theorem encodeChar_ne_nil (c : Char) : String.utf8EncodeChar c ≠ [] := by
  rw [utf8EncodeChar_eq]
  split
  · exact List.cons_ne_nil _ _
  split
  · exact List.cons_ne_nil _ _
  split <;> exact List.cons_ne_nil _ _

/-! ### Open spellings -/

/-- After `front` all numbers are open whose digits go on from those that were
read within the bounds: they are numbers of characters, and their spellings are
`front` and the digits that are left. -/
structure Pending.Opens (p : Pending) (front : Bytes) : Prop where
  low : 0x80 ≤ p.low
  high : p.high ≤ 0xBF
  spelled : ∀ v, p.bits * 64 + (p.low - 0x80) ≤ v / 64 ^ p.further →
    v / 64 ^ p.further ≤ p.bits * 64 + (p.high - 0x80) →
      v.isValidChar ∧
        String.utf8EncodeChar (Char.ofNat v) = front ++ continuation (p.further + 1) v

section Opening

variable {b : UInt8} {n low high : Nat}

theorem opens_two (first : n + 0xC0 = b.toNat) (least : 2 ≤ n) (most : n ≤ 0x1F) :
    Pending.Opens ⟨n, 0x80, 0xBF, 0⟩ [b] where
  low := Nat.le_refl _
  high := Nat.le_refl _
  spelled v above below := by
    simp only [Nat.pow_zero, Nat.div_one] at above below
    have valid : v.isValidChar := .inl (by omega)
    refine ⟨valid, ?_⟩
    rw [utf8EncodeChar_eq, toNat_ofNat valid, if_neg (by omega), if_pos (by omega),
      ofNat_eq (b := b) (by omega)]
    rfl

theorem opens_three (first : n + 0xE0 = b.toNat) (most : n ≤ 0xF) (hlow : 0x80 ≤ low)
    (hhigh : high ≤ 0xBF) (short : n = 0 → 0xA0 ≤ low) (surrogate : n = 0xD → high ≤ 0x9F) :
    Pending.Opens ⟨n, low, high, 1⟩ [b] where
  low := hlow
  high := hhigh
  spelled v above below := by
    simp only [Nat.pow_one] at above below
    have valid : v.isValidChar := by
      by_cases small : v < 0xD800
      · exact .inl small
      · exact .inr (by omega)
    refine ⟨valid, ?_⟩
    rw [utf8EncodeChar_eq, toNat_ofNat valid, if_neg (by omega), if_neg (by omega),
      if_pos (by omega), ofNat_eq (b := b) (by omega)]
    rfl

theorem opens_four (first : n + 0xF0 = b.toNat) (most : n ≤ 4) (hlow : 0x80 ≤ low)
    (hhigh : high ≤ 0xBF) (short : n = 0 → 0x90 ≤ low) (beyond : n = 4 → high ≤ 0x8F) :
    Pending.Opens ⟨n, low, high, 2⟩ [b] where
  low := hlow
  high := hhigh
  spelled v above below := by
    simp only [Nat.reducePow] at above below
    have valid : v.isValidChar := .inr (by omega)
    refine ⟨valid, ?_⟩
    rw [utf8EncodeChar_eq, toNat_ofNat valid, if_neg (by omega), if_neg (by omega),
      if_neg (by omega), ofNat_eq (b := b) (by omega)]
    rfl

end Opening

/-- A first byte opens the spellings that begin with it. -/
theorem opens_of_start {b : UInt8} {p : Pending} (h : start b = .opened p) : p.Opens [b] := by
  simp only [start] at h
  split at h
  · cases h
  split at h
  · cases h
  split at h
  · obtain rfl := Start.opened.inj h
    exact opens_two (by omega) (by omega) (by omega)
  split at h
  · obtain rfl := Start.opened.inj h
    exact opens_three (by omega) (by omega) (by omega) (by omega) (by omega) (by omega)
  split at h
  · obtain rfl := Start.opened.inj h
    exact opens_three (by omega) (by omega) (by omega) (by omega) (by omega) (by omega)
  split at h
  · obtain rfl := Start.opened.inj h
    exact opens_three (by omega) (by omega) (by omega) (by omega) (by omega) (by omega)
  split at h
  · obtain rfl := Start.opened.inj h
    exact opens_four (by omega) (by omega) (by omega) (by omega) (by omega) (by omega)
  split at h
  · obtain rfl := Start.opened.inj h
    exact opens_four (by omega) (by omega) (by omega) (by omega) (by omega) (by omega)
  split at h
  · obtain rfl := Start.opened.inj h
    exact opens_four (by omega) (by omega) (by omega) (by omega) (by omega) (by omega)
  · cases h

namespace Pending.Opens

variable {p : Pending} {front : Bytes} {b : UInt8}

/-- With one byte more, the spellings stay open that go on with it. -/
theorem push {k : Nat} (h : p.Opens front) (further : p.further = k + 1) (above : p.low ≤ b.toNat)
    (below : b.toNat ≤ p.high) : Pending.Opens ⟨p.push b, 0x80, 0xBF, k⟩ (front ++ [b]) where
  low := Nat.le_refl _
  high := Nat.le_refl _
  spelled v least most := by
    have low := h.low
    have high := h.high
    have bits : p.push b = p.bits * 64 + (b.toNat - 0x80) := rfl
    replace least : p.push b * 64 + (0x80 - 0x80) ≤ v / 64 ^ k := least
    replace most : v / 64 ^ k ≤ p.push b * 64 + (0xBF - 0x80) := most
    -- the digit that the byte stands for is the first of those that are left
    have digits : v / 64 ^ (k + 1) = v / 64 ^ k / 64 := by
      rw [Nat.pow_succ, Nat.div_div_eq_div_mul]
    obtain ⟨valid, spelled⟩ := h.spelled v (by rw [further, digits]; omega)
      (by rw [further, digits]; omega)
    refine ⟨valid, ?_⟩
    rw [spelled, further, continuation, ofNat_eq (b := b) (by omega), List.append_assoc,
      List.singleton_append]

/-- The last byte makes up a character. -/
theorem complete (h : p.Opens front) (further : p.further = 0) (above : p.low ≤ b.toNat)
    (below : b.toNat ≤ p.high) :
    String.utf8EncodeChar (Char.ofNat (p.push b)) = front ++ [b] := by
  have low := h.low
  have high := h.high
  have bits : p.push b = p.bits * 64 + (b.toNat - 0x80) := rfl
  obtain ⟨_, spelled⟩ := h.spelled (p.push b) (by rw [further, Nat.pow_zero, Nat.div_one]; omega)
    (by rw [further, Nat.pow_zero, Nat.div_one]; omega)
  rw [spelled, further, continuation, continuation, Nat.pow_zero, Nat.div_one,
    ofNat_eq (b := b) (by omega)]

end Pending.Opens

/-! ### What is read -/

/-- A byte that cannot follow ends an open spelling, and is read anew. -/
theorem readFrom_of_out {p : Pending} {b : UInt8} (out : ¬(p.low ≤ b.toNat ∧ b.toNat ≤ p.high))
    (bs : Bytes) : readFrom (some p) (b :: bs) = none :: read (b :: bs) := by
  rw [readFrom, if_neg out, read, readFrom]
  split <;> rfl

/-- An open spelling becomes a character, or a malformed piece. -/
theorem readFrom_opened {p : Pending} {front : Bytes} (h : p.Opens front) (bs : Bytes) :
    (∃ c mid rest, bs = mid ++ rest ∧ String.utf8EncodeChar c = front ++ mid ∧
      readFrom (some p) bs = some c :: read rest) ∨
    ∃ mid rest, bs = mid ++ rest ∧ (∀ b ∈ mid, 0x80 ≤ b.toNat) ∧
      readFrom (some p) bs = none :: read rest := by
  induction bs generalizing p front with
  | nil => exact .inr ⟨[], [], rfl, by simp, rfl⟩
  | cons b bs ih =>
    by_cases range : p.low ≤ b.toNat ∧ b.toNat ≤ p.high
    · obtain ⟨above, below⟩ := range
      rw [readFrom, if_pos ⟨above, below⟩]
      cases further : p.further with
      | zero => exact .inl ⟨_, [b], bs, rfl, h.complete further above below, rfl⟩
      | succ k =>
        rcases ih (h.push further above below) with
          ⟨c, mid, rest, rfl, spelled, e⟩ | ⟨mid, rest, rfl, free, e⟩
        · refine .inl ⟨c, b :: mid, rest, rfl, ?_, e⟩
          rw [spelled, List.append_assoc, List.singleton_append]
        · refine .inr ⟨b :: mid, rest, rfl, ?_, e⟩
          exact List.forall_mem_cons.mpr ⟨Nat.le_trans h.low above, free⟩
    · exact .inr ⟨[], b :: bs, rfl, by simp, readFrom_of_out range bs⟩

/-- A byte of ASCII is a character by itself. -/
theorem start_ascii {b : UInt8} (h : b.toNat < 0x80) : start b = .complete (Char.ofNat b.toNat) :=
  if_pos (Nat.le_of_lt_succ h)

theorem ascii_of_start {b : UInt8} {c : Char} (h : start b = .complete c) :
    b.toNat < 0x80 ∧ c = Char.ofNat b.toNat := by
  by_cases ascii : b.toNat < 0x80
  · rw [start_ascii ascii] at h
    exact ⟨ascii, (Start.complete.inj h).symm⟩
  · simp only [start] at h
    rw [if_neg (by omega)] at h
    -- no other first byte is a character by itself
    repeat' split at h
    all_goals cases h

theorem high_of_start {b : UInt8} (h : ∀ c, start b ≠ .complete c) : 0x80 ≤ b.toNat := by
  apply Nat.le_of_not_lt
  intro ascii
  exact h _ (start_ascii ascii)

theorem toNat_ofNat_byte {b : UInt8} (h : b.toNat < 0x80) :
    (Char.ofNat b.toNat).toNat = b.toNat :=
  toNat_ofNat (.inl (by omega))

/-- A byte of ASCII is the spelling of its character. -/
theorem encodeChar_of_byte {b : UInt8} (h : b.toNat < 0x80) :
    String.utf8EncodeChar (Char.ofNat b.toNat) = [b] := by
  have same := toNat_ofNat_byte h
  rw [encodeChar_ascii (by rw [same]; exact h), same, UInt8.ofNat_toNat]

/-- **The first piece of what is read** is a character with its spelling, or a
malformed piece without a byte of ASCII. -/
theorem read_cases (b : UInt8) (bs : Bytes) :
    (∃ c rest, b :: bs = String.utf8EncodeChar c ++ rest ∧ read (b :: bs) = some c :: read rest) ∨
    ∃ mid rest, bs = mid ++ rest ∧ (∀ u ∈ b :: mid, 0x80 ≤ u.toNat) ∧
      read (b :: bs) = none :: read rest := by
  cases e : start b with
  | complete c =>
    obtain ⟨ascii, rfl⟩ := ascii_of_start e
    refine .inl ⟨Char.ofNat b.toNat, bs, ?_, ?_⟩
    · rw [encodeChar_of_byte ascii, List.singleton_append]
    · rw [read, readFrom, e]
      rfl
  | opened p =>
    have high := high_of_start (b := b) fun c complete => by rw [complete] at e; cases e
    rw [read, readFrom, e]
    rcases readFrom_opened (opens_of_start e) bs with
      ⟨c, mid, rest, rfl, spelled, read⟩ | ⟨mid, rest, rfl, free, read⟩
    · exact .inl ⟨c, rest, by rw [spelled, List.append_assoc, List.singleton_append], read⟩
    · exact .inr ⟨mid, rest, rfl, List.forall_mem_cons.mpr ⟨high, free⟩, read⟩
  | malformed =>
    have high := high_of_start (b := b) fun c complete => by rw [complete] at e; cases e
    refine .inr ⟨[], bs, rfl, List.forall_mem_singleton.mpr high, ?_⟩
    rw [read, readFrom, e]
    rfl

/-- An induction over what is read, piece by piece. -/
theorem read_induction {motive : Bytes → Prop} (nil : motive [])
    (character : ∀ c rest, read (String.utf8EncodeChar c ++ rest) = some c :: read rest →
      motive rest → motive (String.utf8EncodeChar c ++ rest))
    (malformed : ∀ b mid rest, (∀ u ∈ b :: mid, 0x80 ≤ u.toNat) →
      read (b :: mid ++ rest) = none :: read rest → motive rest → motive (b :: mid ++ rest))
    (bs : Bytes) : motive bs := by
  -- a piece can be of several bytes, so the induction is on the length
  generalize len : bs.length = n
  induction n using Nat.strongRecOn generalizing bs with
  | ind n ih =>
    cases bs with
    | nil => exact nil
    | cons b bs =>
      rcases read_cases b bs with ⟨c, rest, e, piece⟩ | ⟨mid, rest, rfl, high, piece⟩
      · have some := List.length_pos_iff.mpr (encodeChar_ne_nil c)
        rw [e] at len piece ⊢
        rw [List.length_append] at len
        exact character c rest piece (ih rest.length (by omega) rest rfl)
      · rw [List.length_cons, List.length_append] at len
        exact malformed b mid rest high piece (ih rest.length (by omega) rest rfl)

/-! ### What is written is read -/

/-- The digits that an open spelling expects are read as its character. -/
theorem readFrom_continuation {bits low high further v : Nat} (rest : Bytes)
    (front : bits = v / 64 ^ further / 64) (above : low ≤ v / 64 ^ further % 64 + 0x80)
    (below : v / 64 ^ further % 64 + 0x80 ≤ high) :
    readFrom (some ⟨bits, low, high, further⟩) (continuation (further + 1) v ++ rest) =
      some (Char.ofNat v) :: read rest := by
  induction further generalizing bits low high with
  | zero =>
    rw [Nat.pow_zero, Nat.div_one] at front above below
    have digit := toNat_of_lt (n := v % 64 + 0x80) (by omega)
    have whole : bits * 64 + (v % 64 + 0x80 - 0x80) = v := by omega
    rw [continuation, continuation, Nat.pow_zero, Nat.div_one, List.singleton_append, readFrom,
      digit, if_pos ⟨above, below⟩]
    show some (Char.ofNat (bits * 64 + _)) :: _ = _
    rw [digit, whole]
    rfl
  | succ k ih =>
    have digit := toNat_of_lt (n := v / 64 ^ (k + 1) % 64 + 0x80) (by omega)
    have next : v / 64 ^ (k + 1) = v / 64 ^ k / 64 := by
      rw [Nat.pow_succ, Nat.div_div_eq_div_mul]
    rw [continuation, List.cons_append, readFrom, digit, if_pos ⟨above, below⟩]
    apply ih
    · show bits * 64 + _ = _
      rw [digit]
      omega
    · omega
    · omega

/-- The first byte of a spelling of two bytes. -/
theorem start_two {n : Nat} (least : 2 ≤ n) (most : n ≤ 0x1F) :
    start (UInt8.ofNat (n + 0xC0)) = .opened ⟨n, 0x80, 0xBF, 0⟩ := by
  simp only [start, toNat_of_lt (show n + 0xC0 < 256 by omega)]
  rw [if_neg (by omega), if_neg (by omega), if_pos (by omega), Nat.add_sub_cancel]

/-- The first byte of a spelling of three bytes: the second has bounds of its
own. -/
theorem start_three {n d : Nat} (most : n ≤ 0xF) (digit : d ≤ 0x3F) (short : n = 0 → 0x20 ≤ d)
    (surrogate : n = 0xD → d ≤ 0x1F) :
    ∃ low high, start (UInt8.ofNat (n + 0xE0)) = .opened ⟨n, low, high, 1⟩ ∧ low ≤ d + 0x80 ∧
      d + 0x80 ≤ high := by
  simp only [start, toNat_of_lt (show n + 0xE0 < 256 by omega)]
  rw [if_neg (by omega), if_neg (by omega), if_neg (by omega)]
  by_cases zero : n = 0
  · subst zero
    exact ⟨0xA0, 0xBF, rfl, by omega, by omega⟩
  rw [if_neg (by omega)]
  by_cases last : n = 0xD
  · subst last
    exact ⟨0x80, 0x9F, rfl, by omega, by omega⟩
  rw [if_neg (by omega), if_pos (by omega), Nat.add_sub_cancel]
  exact ⟨0x80, 0xBF, rfl, by omega, by omega⟩

/-- The first byte of a spelling of four bytes. -/
theorem start_four {n d : Nat} (most : n ≤ 4) (digit : d ≤ 0x3F) (short : n = 0 → 0x10 ≤ d)
    (beyond : n = 4 → d ≤ 0xF) :
    ∃ low high, start (UInt8.ofNat (n + 0xF0)) = .opened ⟨n, low, high, 2⟩ ∧ low ≤ d + 0x80 ∧
      d + 0x80 ≤ high := by
  simp only [start, toNat_of_lt (show n + 0xF0 < 256 by omega)]
  rw [if_neg (by omega), if_neg (by omega), if_neg (by omega), if_neg (by omega),
    if_neg (by omega), if_neg (by omega)]
  by_cases zero : n = 0
  · subst zero
    exact ⟨0x90, 0xBF, rfl, by omega, by omega⟩
  rw [if_neg (by omega)]
  by_cases last : n = 4
  · subst last
    exact ⟨0x80, 0x8F, rfl, by omega, by omega⟩
  rw [if_pos (by omega), Nat.add_sub_cancel]
  exact ⟨0x80, 0xBF, rfl, by omega, by omega⟩

/-- What follows the first byte of a spelling is read on from what it opens. -/
theorem read_of_start {b : UInt8} {p : Pending} (h : start b = .opened p) (bs : Bytes) :
    read (b :: bs) = readFrom (some p) bs := by
  rw [read, readFrom, h]

/-- **The spelling of a character is read as the character.** -/
theorem read_encodeChar (c : Char) (rest : Bytes) :
    read (String.utf8EncodeChar c ++ rest) = some c :: read rest := by
  have valid : c.toNat < 0xD800 ∨ 0xDFFF < c.toNat ∧ c.toNat < 0x110000 := c.valid
  rw [utf8EncodeChar_eq]
  by_cases one : c.toNat ≤ 0x7F
  · have byte := toNat_of_lt (n := c.toNat) (by omega)
    have first := start_ascii (b := UInt8.ofNat c.toNat) (by omega)
    rw [byte, Char.ofNat_toNat] at first
    rw [if_pos one, List.singleton_append, read, readFrom, first]
    rfl
  rw [if_neg one]
  by_cases two : c.toNat ≤ 0x7FF
  · have digit : c.toNat / 64 % 32 = c.toNat / 64 := by omega
    rw [if_pos two, digit, List.cons_append, read_of_start (start_two (by omega) (by omega)),
      readFrom_continuation rest (by omega) (by omega) (by omega), Char.ofNat_toNat]
  rw [if_neg two]
  by_cases three : c.toNat ≤ 0xFFFF
  · have digit : c.toNat / 4096 % 16 = c.toNat / 4096 := by omega
    obtain ⟨low, high, first, above, below⟩ :=
      start_three (n := c.toNat / 4096) (d := c.toNat / 64 % 64) (by omega) (by omega) (by omega)
        (by omega)
    rw [if_pos three, digit, List.cons_append, read_of_start first,
      readFrom_continuation rest (by omega) (by omega) (by omega), Char.ofNat_toNat]
  · have digit : c.toNat / 262144 % 8 = c.toNat / 262144 := by omega
    obtain ⟨low, high, first, above, below⟩ :=
      start_four (n := c.toNat / 262144) (d := c.toNat / 4096 % 64) (by omega) (by omega)
        (by omega) (by omega)
    rw [if_neg three, digit, List.cons_append, read_of_start first,
      readFrom_continuation rest (by omega) (by omega) (by omega), Char.ofNat_toNat]

theorem read_encode (cs : Text) : read (encode cs) = cs.map some := by
  induction cs with
  | nil => rfl
  | cons c cs ih => rw [encode_cons, read_encodeChar, ih, List.map_cons]

/-! ### Texts -/

theorem decode?_encode (cs : Text) : decode? (encode cs) = some cs := by
  rw [decode?, read_encode]
  induction cs with
  | nil => rfl
  | cons c cs ih =>
    rw [List.map_cons, List.mapM_cons, ih]
    rfl

theorem decodeLossy_encode (cs : Text) : decodeLossy (encode cs) = cs :=
  decodeLossy_of_decode? (decode?_encode cs)

theorem encode_of_decode? {bs : Bytes} {cs : Text} (h : decode? bs = some cs) :
    encode cs = bs := by
  induction bs using read_induction generalizing cs with
  | nil =>
    cases h
    rfl
  | character c rest piece ih =>
    rw [decode?, piece, List.mapM_cons] at h
    obtain ⟨_, first, h⟩ := Option.bind_eq_some_iff.mp h
    obtain ⟨ds, later, h⟩ := Option.bind_eq_some_iff.mp h
    cases first
    cases h
    rw [encode_cons, ih later]
  | malformed b mid rest high piece ih =>
    rw [decode?, piece, List.mapM_cons] at h
    cases h

/-- **What is well formed is what a text is written as.** -/
theorem decode?_eq_some_iff {bs : Bytes} {cs : Text} : decode? bs = some cs ↔ bs = encode cs := by
  constructor
  · intro h
    exact (encode_of_decode? h).symm
  · rintro rfl
    exact decode?_encode cs

/-- What is well formed is what can be written again from what is read. -/
theorem isSome_decode?_iff {bs : Bytes} :
    (decode? bs).isSome = true ↔ encode (decodeLossy bs) = bs := by
  constructor
  · intro h
    obtain ⟨cs, e⟩ := Option.isSome_iff_exists.mp h
    rw [decodeLossy_of_decode? e, encode_of_decode? e]
  · intro h
    rw [← h, decode?_encode]
    rfl

/-! ### Bytes of ASCII -/

/-- A byte of ASCII ends what is open, and is read by itself. -/
theorem readFrom_append_ascii {b : UInt8} (ascii : b.toNat < 0x80) (rest : Bytes)
    {state : Option Pending} (low : ∀ p, state = some p → 0x80 ≤ p.low) (front : Bytes) :
    readFrom state (front ++ b :: rest) =
      readFrom state front ++ some (Char.ofNat b.toNat) :: read rest := by
  have alone : read (b :: rest) = some (Char.ofNat b.toNat) :: read rest := by
    rw [read, readFrom, start_ascii ascii]
    rfl
  induction front generalizing state with
  | nil =>
    cases state with
    | none => exact alone
    | some p =>
      have under := low p rfl
      rw [List.nil_append, readFrom_of_out (by omega), alone]
      rfl
  | cons u front ih =>
    -- between spellings, the byte in front is read as it is alone
    have between : read (u :: front ++ b :: rest) =
        read (u :: front) ++ some (Char.ofNat b.toNat) :: read rest := by
      rw [List.cons_append, read, read, readFrom, readFrom]
      cases e : start u with
      | complete c => exact congrArg (some c :: ·) (ih fun _ => nofun)
      | opened p =>
        refine ih fun q opened => ?_
        rw [← Option.some.inj opened]
        exact (opens_of_start e).low
      | malformed => exact congrArg (none :: ·) (ih fun _ => nofun)
    cases state with
    | none => exact between
    | some p =>
      by_cases range : p.low ≤ u.toNat ∧ u.toNat ≤ p.high
      · rw [List.cons_append, readFrom, readFrom, if_pos range, if_pos range]
        cases p.further with
        | zero => exact congrArg (some (Char.ofNat (p.push u)) :: ·) (ih fun _ => nofun)
        | succ k =>
          refine ih fun q opened => ?_
          have next := Option.some.inj opened
          subst next
          exact Nat.le_refl 0x80
      · rw [readFrom_of_out range, List.cons_append, readFrom_of_out range]
        exact congrArg (none :: ·) between

/-- **A byte of ASCII stands for itself**, whatever is around it. -/
theorem decodeLossy_append_ascii {b : UInt8} (ascii : b.toNat < 0x80) (front rest : Bytes) :
    decodeLossy (front ++ b :: rest) =
      decodeLossy front ++ Char.ofNat b.toNat :: decodeLossy rest := by
  have between : ∀ p : Pending, none = some p → 0x80 ≤ p.low := fun _ => nofun
  rw [decodeLossy, read, readFrom_append_ascii ascii rest between, List.map_append]
  rfl

theorem decodeLossy_cons {bs rest : Bytes} {c : Option Char} (h : read bs = c :: read rest) :
    decodeLossy bs = c.getD replacement :: decodeLossy rest := by
  rw [decodeLossy, h, List.map_cons, decodeLossy]

/-- A character of ASCII comes from such a byte. -/
theorem exists_byte_of_mem {bs : Bytes} {c : Char} (h : c ∈ decodeLossy bs)
    (ascii : c.toNat < 0x80) : ∃ b ∈ bs, b.toNat = c.toNat := by
  induction bs using read_induction with
  | nil => cases h
  | character d rest piece ih =>
    rw [decodeLossy_cons piece] at h
    rcases List.mem_cons.mp h with rfl | later
    · refine ⟨UInt8.ofNat c.toNat, ?_, toNat_of_lt (Nat.lt_trans ascii (by decide))⟩
      exact List.mem_append_left _ (encodeChar_ascii ascii ▸ List.mem_singleton_self _)
    · obtain ⟨b, mem, e⟩ := ih later
      exact ⟨b, List.mem_append_right _ mem, e⟩
  | malformed b mid rest _ piece ih =>
    rw [decodeLossy_cons piece] at h
    rcases List.mem_cons.mp h with rfl | later
    · exact absurd ascii (by decide)
    · obtain ⟨u, mem, e⟩ := ih later
      exact ⟨u, List.mem_append_right _ mem, e⟩

/-- Where only characters of ASCII are read, they are what is written. -/
theorem encode_decodeLossy {bs : Bytes} (h : ∀ c ∈ decodeLossy bs, c.toNat < 0x80) :
    encode (decodeLossy bs) = bs := by
  induction bs using read_induction with
  | nil => rfl
  | character d rest piece ih =>
    rw [decodeLossy_cons piece] at h ⊢
    rw [encode_cons, ih (List.forall_mem_cons.mp h).2]
    rfl
  | malformed b mid rest _ piece ih =>
    rw [decodeLossy_cons piece] at h
    exact absurd (List.forall_mem_cons.mp h).1 (by decide)

section Words

variable {bs : Bytes} {c : Char} {cs : Text}

/-- A text of ASCII is read of nothing but what it is written as. -/
theorem decodeLossy_eq_iff (ascii : ∀ c ∈ cs, c.toNat < 0x80) :
    decodeLossy bs = cs ↔ bs = encode cs := by
  constructor
  · rintro rfl
    exact (encode_decodeLossy ascii).symm
  · rintro rfl
    exact decodeLossy_encode cs

/-- What follows a character of ASCII is read of what follows its byte. -/
theorem exists_byte_of_suffix (ascii : c.toNat < 0x80) (h : c :: cs <:+ decodeLossy bs) :
    ∃ rest, UInt8.ofNat c.toNat :: rest <:+ bs ∧ decodeLossy rest = cs := by
  induction bs using read_induction with
  | nil => exact absurd (List.suffix_nil.mp h) (List.cons_ne_nil c cs)
  | character d rest piece ih =>
    rw [decodeLossy_cons piece] at h
    rcases List.suffix_cons_iff.mp h with e | later
    · obtain ⟨rfl, rfl⟩ := List.cons.inj e
      have byte : [UInt8.ofNat c.toNat] = String.utf8EncodeChar c := (encodeChar_ascii ascii).symm
      exact ⟨rest, byte ▸ List.suffix_rfl, rfl⟩
    · obtain ⟨tail, mem, e⟩ := ih later
      exact ⟨tail, mem.trans (List.suffix_append _ _), e⟩
  | malformed b mid rest _ piece ih =>
    rw [decodeLossy_cons piece] at h
    rcases List.suffix_cons_iff.mp h with e | later
    · obtain ⟨rfl, _⟩ := List.cons.inj e
      exact absurd ascii (by decide)
    · obtain ⟨tail, mem, e⟩ := ih later
      exact ⟨tail, mem.trans (List.suffix_append _ _), e⟩

/-- A text of ASCII ends what is read exactly if its bytes end what it is read
of. -/
theorem suffix_decodeLossy_iff (ascii : ∀ c ∈ cs, c.toNat < 0x80) :
    cs <:+ decodeLossy bs ↔ encode cs <:+ bs := by
  cases cs with
  | nil => exact iff_of_true List.nil_suffix List.nil_suffix
  | cons c cs =>
    obtain ⟨first, others⟩ := List.forall_mem_cons.mp ascii
    rw [encode_cons, encodeChar_ascii first, List.singleton_append]
    constructor
    · intro h
      obtain ⟨rest, back, e⟩ := exists_byte_of_suffix first h
      rwa [← (decodeLossy_eq_iff others).mp e]
    · rintro ⟨front, rfl⟩
      have byte := toNat_of_lt (Nat.lt_trans first (by decide))
      rw [decodeLossy_append_ascii (by rw [byte]; exact first), byte, Char.ofNat_toNat,
        decodeLossy_encode]
      exact List.suffix_append _ _

/-- What is read begins with a character of ASCII exactly if its byte stands at
the front. -/
theorem head?_decodeLossy_iff (ascii : c.toNat < 0x80) :
    (decodeLossy bs).head? = some c ↔ bs.head? = some (UInt8.ofNat c.toNat) := by
  cases bs with
  | nil => exact iff_of_false nofun nofun
  | cons b bs =>
    rw [List.head?_cons, Option.some_inj]
    by_cases low : b.toNat < 0x80
    · have alone := decodeLossy_append_ascii low [] bs
      rw [List.nil_append] at alone
      rw [alone]
      show some (Char.ofNat b.toNat) = some c ↔ _
      rw [Option.some_inj]
      constructor
      · rintro rfl
        rw [toNat_ofNat (.inl (by omega)), UInt8.ofNat_toNat]
      · rintro rfl
        rw [toNat_of_lt (by omega), Char.ofNat_toNat]
    · -- a piece that begins beyond ASCII is no character of ASCII
      have other : b ≠ UInt8.ofNat c.toNat := by
        rintro rfl
        exact low (by rwa [toNat_of_lt (by omega)])
      refine iff_of_false ?_ other
      rcases read_cases b bs with ⟨d, rest, e, piece⟩ | ⟨mid, rest, _, _, piece⟩
      · rw [decodeLossy_cons piece, List.head?_cons, Option.some_inj, Option.getD_some]
        rintro rfl
        rw [encodeChar_ascii ascii, List.singleton_append] at e
        exact other (List.cons.inj e).1
      · rw [decodeLossy_cons piece, List.head?_cons, Option.some_inj]
        rintro rfl
        exact absurd ascii (by decide)

end Words

end AssetAudit.Utf8

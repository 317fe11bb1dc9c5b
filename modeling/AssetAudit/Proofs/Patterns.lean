/-
AssetAudit/Proofs/Patterns.lean

What a pattern looks for, in a text and in its spelling.

Characters are spelled by bytes, and bytes are read as characters of Latin-1.
In both cases a unit of ASCII is spelled by one unit with the same number, and
any other by units that are not of ASCII either (`Spells`).  Everything that a
pattern looks for is ASCII, so it finds the same in a text as in its spelling:

* `startsWith_is_flatMap`, `startsWith_isFolded_flatMap` — words;
* `takeWhile_flatMap`, `dropWhile_flatMap`, `quotedAt_flatMap` — what stands
  before a delimiter;
* `lastExtension?_flatMap` — the extension;
* `objectiveCOpener?_flatMap`, `swiftOpener?_flatMap` — the openers.

Some blanks are not of ASCII, so Swift's opener is the same in both only if what
stands between it and the next quote is (`IsPlainBehind`).
-/
import AssetAudit.Source.Mention
import Mathlib.Data.List.Infix
import Mathlib.Data.List.TakeWhile

namespace AssetAudit

open CodeUnit

/-! ### Units and their spellings -/

variable {α β : Type} [CodeUnit α] [CodeUnit β]

/-- A unit of ASCII is spelled by a unit with its number, and another unit by
units that are not of ASCII. -/
structure Spells (spell : α → List β) : Prop where
  ascii : ∀ u, code u < 0x80 → ∃ b, spell u = [b] ∧ code b = code u
  beyond : ∀ u, 0x80 ≤ code u →
    ∃ b bs, spell u = b :: bs ∧ 0x80 ≤ code b ∧ ∀ v ∈ bs, 0x80 ≤ code v

theorem is_of_code {u : α} {b : β} (h : code b = code u) (c : Char) : is b c = is u c := by
  rw [is, is, h]

theorem is_beyond {u : α} {c : Char} (hc : c.toNat < 0x80) (hu : 0x80 ≤ code u) :
    is u c = false := by
  rw [← Bool.not_eq_true, is_eq_true_iff]
  omega

theorem isFolded_of_code {u : α} {b : β} (h : code b = code u) (c : Char) :
    isFolded b c = isFolded u c := by
  rw [isFolded, isFolded, h]

theorem isFolded_beyond {u : α} {c : Char} (hc : c.toNat < 0x80) (hu : 0x80 ≤ code u) :
    isFolded u c = false := by
  rw [isFolded, beq_eq_false_iff_ne, foldCode, foldCode]
  split <;> split <;> omega

variable {spell : α → List β} (h : Spells spell) {c : Char} {us : List α}

include h

/-! ### Words -/

omit h [CodeUnit α] [CodeUnit β] in
theorem low_of_all {word : Text} (all : word.all (fun c => decide (c.toNat < 0x80)) = true) :
    ∀ c ∈ word, c.toNat < 0x80 :=
  fun c hc => of_decide_eq_true (List.all_eq_true.mp all c hc)

/-- A word of ASCII stands at the front of the spelling if it stands at the front
of the text. -/
theorem startsWith_flatMap {same : α → Char → Bool} {same' : β → Char → Bool}
    (agree : ∀ {u : α} {b : β}, code b = code u → ∀ c, same' b c = same u c)
    (beyond : ∀ {u : α} {c : Char}, c.toNat < 0x80 → 0x80 ≤ code u → same u c = false)
    (beyond' : ∀ {b : β} {c : Char}, c.toNat < 0x80 → 0x80 ≤ code b → same' b c = false)
    {word : Text} (ascii : ∀ c ∈ word, c.toNat < 0x80) (us : List α) :
    startsWith same' word (us.flatMap spell) = startsWith same word us := by
  induction word generalizing us with
  | nil => rw [startsWith_nil, startsWith_nil]
  | cons c word ih =>
    obtain ⟨first, later⟩ := List.forall_mem_cons.mp ascii
    cases us with
    | nil => rfl
    | cons u us =>
      rw [List.flatMap_cons]
      by_cases low : code u < 0x80
      · obtain ⟨b, e, code⟩ := h.ascii u low
        rw [e, List.singleton_append, startsWith, startsWith, agree code, ih later]
      · obtain ⟨b, bs, e, high, _⟩ := h.beyond u (Nat.le_of_not_lt low)
        rw [e, List.cons_append, startsWith, startsWith, beyond first (Nat.le_of_not_lt low),
          beyond' first high]
        rfl

theorem startsWith_is_flatMap {word : Text} (ascii : ∀ c ∈ word, c.toNat < 0x80) (us : List α) :
    startsWith is word (us.flatMap spell) = startsWith is word us :=
  startsWith_flatMap h is_of_code is_beyond is_beyond ascii us

theorem startsWith_isFolded_flatMap {word : Text} (ascii : ∀ c ∈ word, c.toNat < 0x80)
    (us : List α) :
    startsWith isFolded word (us.flatMap spell) = startsWith isFolded word us :=
  startsWith_flatMap h isFolded_of_code isFolded_beyond isFolded_beyond ascii us

omit h in
/-- No word of ASCII stands where a unit beyond ASCII stands. -/
theorem startsWith_beyond {same : α → Char → Bool}
    (beyond : ∀ {u : α} {c : Char}, c.toNat < 0x80 → 0x80 ≤ code u → same u c = false)
    {word : Text} (some : word ≠ []) (ascii : ∀ c ∈ word, c.toNat < 0x80) {u : α}
    (high : 0x80 ≤ code u) (us : List α) : startsWith same word (u :: us) = false := by
  obtain ⟨c, word, rfl⟩ := List.exists_cons_of_ne_nil some
  rw [startsWith, beyond (ascii c List.mem_cons_self) high, Bool.false_and]

/-- Units of ASCII are dropped one for one. -/
theorem drop_flatMap {n : Nat} (low : ∀ u ∈ us.take n, code u < 0x80) :
    (us.flatMap spell).drop n = (us.drop n).flatMap spell := by
  induction n generalizing us with
  | zero => rfl
  | succ n ih =>
    cases us with
    | nil => rfl
    | cons u us =>
      obtain ⟨first, later⟩ := List.forall_mem_cons.mp low
      obtain ⟨b, e, _⟩ := h.ascii u first
      rw [List.flatMap_cons, e, List.singleton_append, List.drop_succ_cons, List.drop_succ_cons,
        ih later]

omit h in
/-- Units that begin with a word of ASCII begin with units of ASCII. -/
theorem low_of_startsWith {same : α → Char → Bool}
    (beyond : ∀ {u : α} {c : Char}, c.toNat < 0x80 → 0x80 ≤ code u → same u c = false)
    {word : Text} (ascii : ∀ c ∈ word, c.toNat < 0x80) (begins : startsWith same word us = true) :
    (us.take word.length).length = word.length ∧ ∀ u ∈ us.take word.length, code u < 0x80 := by
  induction word generalizing us with
  | nil => exact ⟨rfl, by simp⟩
  | cons c word ih =>
    obtain ⟨first, later⟩ := List.forall_mem_cons.mp ascii
    cases us with
    | nil => cases begins
    | cons u us =>
      rw [startsWith, Bool.and_eq_true] at begins
      obtain ⟨len, low⟩ := ih later begins.2
      have here : code u < 0x80 := by
        apply Nat.lt_of_not_le
        intro high
        rw [beyond first high] at begins
        cases begins.1
      rw [List.length_cons, List.take_succ_cons, List.length_cons, len]
      exact ⟨rfl, List.forall_mem_cons.mpr ⟨here, low⟩⟩

/-- Units of ASCII are spelled one for one. -/
theorem length_flatMap_of_low (low : ∀ u ∈ us, code u < 0x80) :
    (us.flatMap spell).length = us.length := by
  induction us with
  | nil => rfl
  | cons u us ih =>
    obtain ⟨first, later⟩ := List.forall_mem_cons.mp low
    obtain ⟨b, e, _⟩ := h.ascii u first
    rw [List.flatMap_cons, e, List.singleton_append, List.length_cons, List.length_cons, ih later]

/-! ### Up to a delimiter -/

/-- A spelling begins with a unit that looks for ASCII like the one that is
spelled, and goes on beyond ASCII. -/
theorem exists_head (u : α) :
    ∃ b bs, spell u = b :: bs ∧ (∀ v ∈ bs, 0x80 ≤ code v) ∧
      ∀ c : Char, c.toNat < 0x80 → is b c = is u c := by
  by_cases low : code u < 0x80
  · obtain ⟨b, e, code⟩ := h.ascii u low
    exact ⟨b, [], e, by simp, fun c _ => is_of_code code c⟩
  · obtain ⟨b, bs, e, high, later⟩ := h.beyond u (Nat.le_of_not_lt low)
    refine ⟨b, bs, e, later, ?_⟩
    intro c hc
    rw [is_beyond hc high, is_beyond hc (Nat.le_of_not_lt low)]

omit h [CodeUnit α] in
theorem not_delimiter {bs : List β} (hc : c.toNat < 0x80) (high : ∀ v ∈ bs, 0x80 ≤ code v) :
    ∀ v ∈ bs, (!is v c) = true := by
  intro v hv
  rw [is_beyond hc (high v hv)]
  rfl

/-- Units up to a delimiter are spelled by those up to the delimiter. -/
theorem takeWhile_flatMap (hc : c.toNat < 0x80) (us : List α) :
    (us.flatMap spell).takeWhile (!is · c) = (us.takeWhile (!is · c)).flatMap spell := by
  induction us with
  | nil => rfl
  | cons u us ih =>
    obtain ⟨b, bs, e, high, looks⟩ := exists_head h u
    have same := looks c hc
    rw [List.flatMap_cons, e, List.cons_append, List.takeWhile_cons, List.takeWhile_cons, same]
    split
    · rw [List.takeWhile_append_of_pos (not_delimiter hc high), ih, List.flatMap_cons, e]
      rfl
    · rfl

theorem dropWhile_flatMap (hc : c.toNat < 0x80) (us : List α) :
    (us.flatMap spell).dropWhile (!is · c) = (us.dropWhile (!is · c)).flatMap spell := by
  have whole : (us.flatMap spell).takeWhile (!is · c) ++ (us.flatMap spell).dropWhile (!is · c) =
      (us.takeWhile (!is · c)).flatMap spell ++ (us.dropWhile (!is · c)).flatMap spell := by
    rw [List.takeWhile_append_dropWhile, ← List.flatMap_append, List.takeWhile_append_dropWhile]
  rw [takeWhile_flatMap h hc] at whole
  exact List.append_cancel_left whole

omit h [CodeUnit α] in
theorem drop_length_takeWhile (p : α → Bool) (us : List α) :
    us.drop (us.takeWhile p).length = us.dropWhile p := by
  have whole := List.takeWhile_append_dropWhile (p := p) (l := us)
  calc us.drop (us.takeWhile p).length
      = (us.takeWhile p ++ us.dropWhile p).drop (us.takeWhile p).length := by rw [whole]
    _ = us.dropWhile p := List.drop_left

theorem isEmpty_flatMap (us : List α) : (us.flatMap spell).isEmpty = us.isEmpty := by
  cases us with
  | nil => rfl
  | cons u us =>
    obtain ⟨b, bs, e, _⟩ := exists_head h u
    rw [List.flatMap_cons, e]
    rfl

/-! ### Names in quotes -/

theorem quotedAt_flatMap (us : List α) :
    quotedAt (us.flatMap spell) = (quotedAt us).map (·.flatMap spell) := by
  have quote : '"'.toNat < 0x80 := by decide
  have word : ∀ c ∈ ['"'], c.toNat < 0x80 := List.forall_mem_singleton.mpr quote
  simp only [quotedAt]
  rw [drop_length_takeWhile, drop_length_takeWhile, takeWhile_flatMap h quote,
    dropWhile_flatMap h quote, isEmpty_flatMap h, startsWith_is_flatMap h word]
  split <;> rfl

/-! ### Names with the extension -/

omit h [CodeUnit α] [CodeUnit β] in
theorem extension_ascii : ∀ c ∈ ".png".toList, c.toNat < 0x80 :=
  low_of_all (by decide)

omit h [CodeUnit α] in
/-- Units beyond ASCII are passed over in looking for the extension. -/
theorem lastExtension?_append {bs : List β} (hc : c.toNat < 0x80)
    (high : ∀ v ∈ bs, 0x80 ≤ code v) (rest : List β) :
    lastExtension? c (bs ++ rest) = (lastExtension? c rest).map (· + bs.length) := by
  induction bs with
  | nil => simp
  | cons v bs ih =>
    obtain ⟨first, later⟩ := List.forall_mem_cons.mp high
    rw [List.cons_append, lastExtension?, is_beyond hc first, if_neg Bool.false_ne_true, ih later,
      startsWith_beyond isFolded_beyond (by decide) extension_ascii first]
    cases lastExtension? c rest <;> rfl

/-- The last extension before a delimiter ends behind the spelling of what it ends
behind in the text. -/
theorem lastExtension?_flatMap (hc : c.toNat < 0x80) (us : List α) :
    lastExtension? c (us.flatMap spell) =
      (lastExtension? c us).map fun n => ((us.take n).flatMap spell).length := by
  induction us with
  | nil => rfl
  | cons u us ih =>
    by_cases low : code u < 0x80
    · obtain ⟨b, e, code⟩ := h.ascii u low
      have begins := startsWith_isFolded_flatMap h extension_ascii (u :: us)
      rw [List.flatMap_cons, e, List.singleton_append] at begins ⊢
      rw [lastExtension?, lastExtension?, is_of_code code, begins, ih]
      split
      · rfl
      cases lastExtension? c us with
      | some n =>
        show some (((us.take n).flatMap spell).length + 1) =
          some (((u :: us).take (n + 1)).flatMap spell).length
        rw [List.take_succ_cons, List.flatMap_cons, e]
        rfl
      | none =>
        show (if _ then some 4 else none) = Option.map _ (if _ then some 4 else none)
        split
        · rename_i found
          obtain ⟨len, lows⟩ := low_of_startsWith isFolded_beyond extension_ascii found
          rw [Option.map_some]
          exact congrArg some ((length_flatMap_of_low h lows).trans len).symm
        · rfl
    · have high := Nat.le_of_not_lt low
      obtain ⟨b, bs, e, first, later⟩ := h.beyond u high
      have dot := startsWith_beyond isFolded_beyond (by decide) extension_ascii high us
      rw [List.flatMap_cons, e, lastExtension?_append hc (List.forall_mem_cons.mpr ⟨first, later⟩),
        ih, lastExtension?, is_beyond hc high, if_neg Bool.false_ne_true, dot]
      cases lastExtension? c us with
      | some n =>
        show some (((us.take n).flatMap spell).length + (b :: bs).length) =
          some (((u :: us).take (n + 1)).flatMap spell).length
        rw [List.take_succ_cons, List.flatMap_cons, List.length_append, e, Nat.add_comm]
      | none => rfl

/-! ### Openers -/

/-- An opener reads a spelling as it reads the text, and all of it is ASCII. -/
structure SameOpener (spell : α → List β) (opener? : List α → Option Nat)
    (opener?' : List β → Option Nat) (us : List α) : Prop where
  same : opener?' (us.flatMap spell) = opener? us
  low : ∀ {n}, opener? us = some n → ∀ u ∈ us.take n, code u < 0x80

/-- Objective-C's opener. -/
def objectiveCWord : Text := "imageNamed:@\"".toList

/-- The word that begins Swift's opener. -/
def swiftWord : Text := "UIImage(named:".toList

omit h [CodeUnit α] [CodeUnit β] in
theorem objectiveCWord_ascii : ∀ c ∈ objectiveCWord, c.toNat < 0x80 :=
  low_of_all (by decide)

omit h [CodeUnit α] [CodeUnit β] in
theorem swiftWord_ascii : ∀ c ∈ swiftWord, c.toNat < 0x80 :=
  low_of_all (by decide)

omit h [CodeUnit β] in
theorem objectiveCOpener?_eq (us : List α) :
    objectiveCOpener? us =
      if startsWith is objectiveCWord us then some objectiveCWord.length else none := rfl

omit h [CodeUnit β] in
theorem objectiveCOpener?_beyond {u : α} (high : 0x80 ≤ code u) (us : List α) :
    objectiveCOpener? (u :: us) = none := by
  rw [objectiveCOpener?_eq, startsWith_beyond is_beyond (by decide) objectiveCWord_ascii high]
  rfl

theorem objectiveCOpener?_flatMap (us : List α) :
    SameOpener spell objectiveCOpener? objectiveCOpener? us := by
  constructor
  · rw [objectiveCOpener?_eq, objectiveCOpener?_eq, startsWith_is_flatMap h objectiveCWord_ascii]
  · intro n opens
    rw [objectiveCOpener?_eq] at opens
    split at opens
    · rename_i begins
      cases opens
      exact (low_of_startsWith is_beyond objectiveCWord_ascii begins).2
    · cases opens

/-- Where the word of Swift's opener stands at the front, all units between it and
the next quote are of ASCII. -/
def IsPlainBehind (us : List α) : Prop :=
  startsWith is swiftWord us = true → (us.drop swiftWord.length).any (is · '"') = true →
    ∀ u ∈ (us.drop swiftWord.length).takeWhile (!is · '"'), code u < 0x80

/-- How many blanks stand behind the word of Swift's opener. -/
def blanksBehind (us : List α) : Nat :=
  ((us.drop swiftWord.length).takeWhile isBlank).length

omit h [CodeUnit β] in
theorem swiftOpener?_eq (us : List α) :
    swiftOpener? us =
      if startsWith is swiftWord us then
        if startsWith is ['"'] ((us.drop swiftWord.length).drop (blanksBehind us)) then
          some (swiftWord.length + blanksBehind us + 1)
        else none
      else none := by
  rw [List.drop_drop]
  rfl

omit h [CodeUnit β] in
theorem swiftOpener?_beyond {u : α} (high : 0x80 ≤ code u) (us : List α) :
    swiftOpener? (u :: us) = none := by
  rw [swiftOpener?_eq, startsWith_beyond is_beyond (by decide) swiftWord_ascii high]
  rfl

omit h [CodeUnit β] in
/-- Blanks end before a quote. -/
theorem takeWhile_isBlank (us : List α) :
    (us.takeWhile (!is · '"')).takeWhile isBlank = us.takeWhile isBlank := by
  induction us with
  | nil => rfl
  | cons u us ih =>
    cases quote : is u '"' with
    | false =>
      rw [List.takeWhile_cons, quote, Bool.not_false, if_pos rfl, List.takeWhile_cons, ih,
        List.takeWhile_cons]
    | true =>
      have visible : isBlank u = false := by
        rw [isBlank, is_eq_true_iff.mp quote]
        rfl
      rw [List.takeWhile_cons, quote, Bool.not_true, if_neg Bool.false_ne_true,
        List.takeWhile_cons, visible]
      rfl

/-- Blanks of ASCII are spelled by blanks. -/
theorem takeWhile_isBlank_flatMap (low : ∀ u ∈ us, code u < 0x80) :
    (us.flatMap spell).takeWhile isBlank = (us.takeWhile isBlank).flatMap spell := by
  induction us with
  | nil => rfl
  | cons u us ih =>
    obtain ⟨first, later⟩ := List.forall_mem_cons.mp low
    obtain ⟨b, e, code⟩ := h.ascii u first
    have blank : isBlank b = isBlank u := by
      rw [isBlank, isBlank, code]
    rw [List.flatMap_cons, e, List.singleton_append, List.takeWhile_cons, List.takeWhile_cons,
      blank, ih later]
    split
    · rw [List.flatMap_cons, e]
      rfl
    · rfl

/-- A delimiter stands in a spelling if it stands in the text. -/
theorem any_flatMap (hc : c.toNat < 0x80) (us : List α) :
    (us.flatMap spell).any (is · c) = us.any (is · c) := by
  induction us with
  | nil => rfl
  | cons u us ih =>
    obtain ⟨b, bs, e, high, looks⟩ := exists_head h u
    have none : bs.any (is · c) = false := by
      rw [List.any_eq_false]
      intro v hv
      rw [is_beyond hc (high v hv)]
      exact Bool.false_ne_true
    rw [List.flatMap_cons, e, List.cons_append, List.any_cons, List.any_append, looks c hc, none,
      Bool.false_or, ih, List.any_cons]

omit h [CodeUnit β] in
theorem any_of_startsWith_drop {k : Nat} (begins : startsWith is [c] (us.drop k) = true) :
    us.any (is · c) = true := by
  cases rest : us.drop k with
  | nil =>
    rw [rest] at begins
    cases begins
  | cons u more =>
    rw [rest, startsWith, startsWith_nil, Bool.and_true] at begins
    refine List.any_eq_true.mpr ⟨u, List.mem_of_mem_drop (i := k) ?_, begins⟩
    rw [rest]
    exact List.mem_cons_self

/-- Where the units behind the word are plain, Swift's opener reads the spelling as
it reads the text. -/
theorem swiftOpener?_flatMap (plain : IsPlainBehind us) :
    SameOpener spell swiftOpener? swiftOpener? us := by
  have quote : '"'.toNat < 0x80 := by decide
  have word : ∀ c ∈ ['"'], c.toNat < 0x80 := List.forall_mem_singleton.mpr quote
  by_cases begins : startsWith is swiftWord us = true
  swap
  · have closed : swiftOpener? us = none := by
      rw [swiftOpener?_eq, if_neg begins]
    refine ⟨?_, fun opens => by rw [closed] at opens; cases opens⟩
    rw [closed, swiftOpener?_eq, startsWith_is_flatMap h swiftWord_ascii, if_neg begins]
  obtain ⟨_, lowWord⟩ := low_of_startsWith is_beyond swiftWord_ascii begins
  have behind := drop_flatMap h lowWord
  by_cases quoted : (us.drop swiftWord.length).any (is · '"') = true
  swap
  · -- without a quote behind the word there is no opener, whatever the blanks are
    have closed : swiftOpener? us = none := by
      rw [swiftOpener?_eq, if_pos begins, if_neg fun q => quoted (any_of_startsWith_drop q)]
    refine ⟨?_, fun opens => by rw [closed] at opens; cases opens⟩
    rw [closed, swiftOpener?_eq, startsWith_is_flatMap h swiftWord_ascii, if_pos begins, behind,
      if_neg fun q => quoted ((any_flatMap h quote _).symm.trans (any_of_startsWith_drop q))]
  have low := plain begins quoted
  have blanks : (us.drop swiftWord.length).take (blanksBehind us) =
      ((us.drop swiftWord.length).takeWhile (!is · '"')).takeWhile isBlank := by
    rw [takeWhile_isBlank]
    exact (List.prefix_iff_eq_take.mp (List.takeWhile_prefix isBlank)).symm
  have lowBlanks : ∀ u ∈ (us.drop swiftWord.length).take (blanksBehind us), code u < 0x80 := by
    intro u hu
    rw [blanks] at hu
    exact low u (List.takeWhile_subset _ hu)
  have count : blanksBehind (us.flatMap spell) = blanksBehind us := by
    calc blanksBehind (us.flatMap spell)
        = (((us.drop swiftWord.length).flatMap spell).takeWhile isBlank).length := by
          rw [blanksBehind, behind]
      _ = (((us.drop swiftWord.length).take (blanksBehind us)).flatMap spell).length := by
          rw [← takeWhile_isBlank, takeWhile_flatMap h quote, takeWhile_isBlank_flatMap h low,
            ← blanks]
      _ = blanksBehind us := by
          rw [length_flatMap_of_low h lowBlanks, blanks, takeWhile_isBlank]
          rfl
  constructor
  · rw [swiftOpener?_eq, swiftOpener?_eq, startsWith_is_flatMap h swiftWord_ascii, behind, count,
      drop_flatMap h lowBlanks, startsWith_is_flatMap h word]
  · intro n opens u hu
    rw [swiftOpener?_eq, if_pos begins] at opens
    split at opens
    · rename_i closes
      cases opens
      -- the word, the blanks and the quote
      rw [Nat.add_assoc, List.take_add, List.take_add, List.mem_append, List.mem_append] at hu
      rcases hu with hu | hu | hu
      · exact lowWord u hu
      · exact lowBlanks u hu
      · exact (low_of_startsWith is_beyond word closes).2 u hu
    · cases opens

/-! ### Plain openers -/

instance (us : List α) : Decidable (IsPlainBehind us) :=
  inferInstanceAs (Decidable (_ → _ → _))

/-- Only units of ASCII stand between the word of Swift's opener and the next
quote, wherever in the text the word stands. -/
def PlainOpeners (us : List α) : Prop :=
  ∀ t ∈ us.tails, IsPlainBehind t

instance (us : List α) : Decidable (PlainOpeners us) :=
  inferInstanceAs (Decidable (∀ t ∈ us.tails, IsPlainBehind t))

/-- A spelling is of ASCII if the text is. -/
theorem low_flatMap : (∀ v ∈ us.flatMap spell, code v < 0x80) ↔ ∀ u ∈ us, code u < 0x80 := by
  constructor
  · intro low u hu
    by_contra high
    obtain ⟨b, bs, e, beyond, _⟩ := h.beyond u (Nat.le_of_not_lt high)
    have here : b ∈ us.flatMap spell := by
      rw [List.mem_flatMap]
      exact ⟨u, hu, by rw [e]; exact List.mem_cons_self⟩
    exact absurd (low b here) (Nat.not_lt_of_le beyond)
  · intro low v hv
    obtain ⟨u, hu, here⟩ := List.mem_flatMap.mp hv
    obtain ⟨b, e, same⟩ := h.ascii u (low u hu)
    rw [e, List.mem_singleton] at here
    rw [here, same]
    exact low u hu

theorem isPlainBehind_flatMap (us : List α) :
    IsPlainBehind (us.flatMap spell) ↔ IsPlainBehind us := by
  have quote : '"'.toNat < 0x80 := by decide
  rw [IsPlainBehind, IsPlainBehind, startsWith_is_flatMap h swiftWord_ascii]
  refine imp_congr_right fun begins => ?_
  have behind := drop_flatMap h (low_of_startsWith is_beyond swiftWord_ascii begins).2
  rw [behind, any_flatMap h quote, takeWhile_flatMap h quote, low_flatMap h]

/-- A text with a plain spelling is plain. -/
theorem plainOpeners_of_flatMap (plain : PlainOpeners (us.flatMap spell)) : PlainOpeners us := by
  intro t ht
  obtain ⟨front, rfl⟩ := (List.mem_tails t us).mp ht
  refine (isPlainBehind_flatMap h t).mp (plain _ ?_)
  rw [List.mem_tails, List.flatMap_append]
  exact List.suffix_append _ _

end AssetAudit

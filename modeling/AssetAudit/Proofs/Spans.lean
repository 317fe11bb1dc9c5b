/-
AssetAudit/Proofs/Spans.lean

Where in a text the mentions stand.

The search for mentions gives their names.  Here it gives the spans of the text
in which the names stand (`SourceFormat.spans`); a mention ends with its name in
documents, and with a quote behind its name in code (`SourceFormat.closing`).

* `SourceFormat.mentions_eq_spans` — the names are what stands in the spans;
* `SourceFormat.pairwise_spans`, `SourceFormat.stop_le_length` — the spans follow
  one another, and the last ends within the text.

A spelling of the text has its mentions at the same places: one step of the search
in the text is one or more steps in the spelling (`Follows`, with `literalAt_follows`
and `fileNameAt_follows` for the two kinds of pattern), so all of the search is
(`spansFrom_flatMap`).

Main results: `SourceFormat.spans_flatMap` and `SourceFormat.mentions_flatMap`.
-/
import AssetAudit.Proofs.Patterns

namespace AssetAudit

open CodeUnit

variable {α β : Type}

/-! ### Spans -/

/-- So many units of a text, from a place on. -/
structure Span where
  start : Nat
  length : Nat
  deriving DecidableEq, Repr

namespace Span

/-- The place behind a span. -/
def stop (s : Span) : Nat :=
  s.start + s.length

/-- The units of a text in a span. -/
def slice (s : Span) (us : List α) : List α :=
  (us.drop s.start).take s.length

/-- Where the units in a span of a text stand in its spelling. -/
def spelled (spell : α → List β) (us : List α) (s : Span) : Span where
  start := ((us.take s.start).flatMap spell).length
  length := ((s.slice us).flatMap spell).length

theorem slice_append (front name rest : List α) :
    slice ⟨front.length, name.length⟩ (front ++ (name ++ rest)) = name := by
  rw [slice, List.drop_left, List.take_left]

theorem slice_spelled (spell : α → List β) (us : List α) (s : Span) :
    (s.spelled spell us).slice (us.flatMap spell) = (s.slice us).flatMap spell := by
  have parts : us = us.take s.start ++ (s.slice us ++ (us.drop s.start).drop s.length) := by
    rw [slice, List.take_append_drop, List.take_append_drop]
  calc (s.spelled spell us).slice (us.flatMap spell)
      = slice (s.spelled spell us) ((us.take s.start).flatMap spell ++
          ((s.slice us).flatMap spell ++ ((us.drop s.start).drop s.length).flatMap spell)) := by
        rw [← List.flatMap_append, ← List.flatMap_append, ← parts]
    _ = (s.slice us).flatMap spell := slice_append _ _ _

end Span

/-! ### The search for spans -/

/-- The spans of the names mentioned in the units from a place on, once `skip` more
have been passed over, where so many units of a mention stand behind its name. -/
def spansFrom (attempt : List α → Attempt α) (closing : Nat) :
    (place skip : Nat) → List α → List Span
  | _, _, [] => []
  | place, skip + 1, _ :: us => spansFrom attempt closing (place + 1) skip us
  | place, 0, u :: us =>
    match attempt (u :: us) with
    | .mention name length =>
      ⟨place + length - (name.length + closing), name.length⟩ ::
        spansFrom attempt closing (place + 1) (length - 1) us
    | .nothing places => spansFrom attempt closing (place + 1) (places - 1) us

section

variable {attempt : List α → Attempt α} {closing place : Nat} {us : List α}

theorem spansFrom_skip (skip : Nat) :
    spansFrom attempt closing place skip us =
      spansFrom attempt closing (place + skip) 0 (us.drop skip) := by
  induction us generalizing place skip with
  | nil => rw [List.drop_nil, spansFrom, spansFrom]
  | cons u us ih =>
    cases skip with
    | zero => rfl
    | succ skip =>
      rw [spansFrom, ih, List.drop_succ_cons, Nat.add_assoc, Nat.add_comm 1]

/-- Behind a mention the search goes on. -/
theorem search_of_mention {name : List α} {length : Nat} (closing place : Nat)
    (nonempty : us ≠ []) (pos : 0 < length) (found : attempt us = .mention name length) :
    namesFrom attempt 0 us = name :: namesFrom attempt 0 (us.drop length) ∧
      spansFrom attempt closing place 0 us =
        ⟨place + length - (name.length + closing), name.length⟩ ::
          spansFrom attempt closing (place + length) 0 (us.drop length) := by
  obtain ⟨u, us, rfl⟩ := List.exists_cons_of_ne_nil nonempty
  obtain ⟨n, rfl⟩ := Nat.exists_eq_succ_of_ne_zero (Nat.ne_of_gt pos)
  rw [namesFrom, spansFrom, found]
  show name :: namesFrom attempt n us = _ ∧ _ :: spansFrom attempt closing (place + 1) n us = _
  rw [namesFrom_skip, spansFrom_skip, List.drop_succ_cons, Nat.add_assoc, Nat.add_comm 1]
  exact ⟨rfl, rfl⟩

/-- Where there is no mention, the search goes on behind the places that were
looked at. -/
theorem search_of_nothing {places : Nat} (closing place : Nat) (nonempty : us ≠ [])
    (pos : 0 < places) (nothing : attempt us = .nothing places) :
    namesFrom attempt 0 us = namesFrom attempt 0 (us.drop places) ∧
      spansFrom attempt closing place 0 us =
        spansFrom attempt closing (place + places) 0 (us.drop places) := by
  obtain ⟨u, us, rfl⟩ := List.exists_cons_of_ne_nil nonempty
  obtain ⟨n, rfl⟩ := Nat.exists_eq_succ_of_ne_zero (Nat.ne_of_gt pos)
  rw [namesFrom, spansFrom, nothing]
  show namesFrom attempt n us = _ ∧ spansFrom attempt closing (place + 1) n us = _
  rw [namesFrom_skip, spansFrom_skip, List.drop_succ_cons, Nat.add_assoc, Nat.add_comm 1]
  exact ⟨rfl, rfl⟩

end

/-! ### What a pattern can say -/

variable [CodeUnit α] [CodeUnit β]

/-- What a pattern says of the units at a place fits them: a mention is an opening,
a name and so many closing units of ASCII, and no more places are passed over than
there are. -/
def Attempt.Fits (closing : Nat) (us : List α) : Attempt α → Prop
  | .mention name length => name ≠ [] ∧ ∃ opening close rest,
      us = opening ++ (name ++ (close ++ rest)) ∧ close.length = closing ∧
      (∀ u ∈ close, code u < 0x80) ∧ length = opening.length + (name.length + closing)
  | .nothing places => 0 < places ∧ places ≤ us.length

theorem Attempt.Fits.pos {closing length : Nat} {us name : List α}
    (h : (Attempt.mention name length).Fits closing us) : 0 < length := by
  obtain ⟨nonempty, _, _, _, _, _, _, rfl⟩ := h
  have := List.length_pos_iff.mpr nonempty
  omega

theorem Attempt.Fits.le {closing length : Nat} {us name : List α}
    (h : (Attempt.mention name length).Fits closing us) : length ≤ us.length := by
  obtain ⟨_, opening, close, rest, rfl, rfl, _, rfl⟩ := h
  simp only [List.length_append]
  omega

/-- How many units of a mention stand behind its name. -/
def SourceFormat.closing : SourceFormat → Nat
  | .objectiveC | .swift => 1
  | .interface | .propertyList => 0

theorem eq_of_quotedAt {us name : List α} (h : quotedAt us = some name) :
    name ≠ [] ∧ ∃ quote more, us = name ++ quote :: more ∧ code quote < 0x80 := by
  simp only [quotedAt] at h
  split at h
  · rename_i quoted
    rw [Bool.and_eq_true, drop_length_takeWhile] at quoted
    cases h
    refine ⟨by simpa using quoted.1, ?_⟩
    cases rest : us.dropWhile (!is · '"') with
    | nil =>
      rw [rest] at quoted
      cases quoted.2
    | cons quote more =>
      rw [rest, startsWith, startsWith_nil, Bool.and_true] at quoted
      refine ⟨quote, more, ?_, ?_⟩
      · rw [← rest, List.takeWhile_append_dropWhile]
      · rw [is_eq_true_iff.mp quoted.2]
        decide
  · cases h

theorem le_of_quotedAt {us name : List α} {n : Nat} (h : quotedAt (us.drop n) = some name) :
    n ≤ us.length := by
  obtain ⟨_, quote, more, rest, _⟩ := eq_of_quotedAt h
  have some : us.drop n ≠ [] := by simp [rest]
  exact Nat.le_of_lt (Nat.lt_of_not_le (mt List.drop_eq_nil_of_le some))

theorem literalAt_fits {opener? : List α → Option Nat} {us : List α} (nonempty : us ≠ []) :
    (literalAt opener? us).Fits 1 us := by
  have one : (Attempt.nothing 1 : Attempt α).Fits 1 us :=
    ⟨Nat.one_pos, List.length_pos_iff.mpr nonempty⟩
  rw [literalAt]
  cases opener? us with
  | none => exact one
  | some n =>
    dsimp only
    cases quoted : quotedAt (us.drop n) with
    | none => exact one
    | some name =>
      obtain ⟨name_ne_nil, quote, more, rest, ascii⟩ := eq_of_quotedAt quoted
      refine ⟨name_ne_nil, us.take n, [quote], more, ?_, rfl, by simpa using ascii, ?_⟩
      · rw [List.singleton_append, ← rest, List.take_append_drop]
      · rw [List.length_take_of_le (le_of_quotedAt quoted), Nat.add_assoc]

theorem lastExtension?_le {delimiter : Char} {us : List α} {n : Nat}
    (h : lastExtension? delimiter us = some n) : n ≤ us.length := by
  induction us generalizing n with
  | nil => cases h
  | cons u us ih =>
    rw [lastExtension?] at h
    split at h
    · cases h
    · cases later : lastExtension? delimiter us with
      | some m =>
        rw [later] at h
        cases h
        exact Nat.succ_le_succ (ih later)
      | none =>
        rw [later] at h
        dsimp only at h
        split at h
        · rename_i begins
          cases h
          have len := (low_of_startsWith isFolded_beyond extension_ascii begins).1
          have short := List.length_take_le' 4 (u :: us)
          exact Nat.le_trans (Nat.le_of_eq len.symm) short
        · cases h

theorem fileNameAt_fits (delimiter : Char) {us : List α} (nonempty : us ≠ []) :
    (fileNameAt delimiter us).Fits 0 us := by
  obtain ⟨u, us, rfl⟩ := List.exists_cons_of_ne_nil nonempty
  rw [fileNameAt]
  split
  · exact ⟨Nat.one_pos, Nat.succ_le_succ (Nat.zero_le _)⟩
  · cases last : lastExtension? delimiter us with
    | some n =>
      refine ⟨List.cons_ne_nil _ _, [], [], us.drop n, ?_, rfl, by simp, ?_⟩
      · simp
      · simp [lastExtension?_le last]
    | none =>
      exact ⟨Nat.succ_pos _, Nat.succ_le_succ (List.takeWhile_prefix _).length_le⟩

theorem SourceFormat.attempt_fits (f : SourceFormat) {us : List α} (nonempty : us ≠ []) :
    (f.attempt us).Fits f.closing us := by
  cases f with
  | objectiveC => exact literalAt_fits nonempty
  | swift => exact literalAt_fits nonempty
  | interface => exact fileNameAt_fits _ nonempty
  | propertyList => exact fileNameAt_fits _ nonempty

/-! ### Names and their spans -/

section

variable {attempt : List α → Attempt α} {closing : Nat}

omit [CodeUnit β] in
/-- What holds behind each step of the search holds of the whole text. -/
theorem search_induction (fits : ∀ us, us ≠ [] → (attempt us).Fits closing us)
    {motive : List α → Prop} (nil : motive [])
    (mention : ∀ us name length, us ≠ [] → attempt us = .mention name length →
      (Attempt.mention name length).Fits closing us → motive (us.drop length) → motive us)
    (nothing : ∀ us places, us ≠ [] → attempt us = .nothing places →
      0 < places → places ≤ us.length → motive (us.drop places) → motive us)
    (us : List α) : motive us := by
  generalize len : us.length = n
  induction n using Nat.strongRecOn generalizing us with
  | ind n ih =>
    by_cases empty : us = []
    · rw [empty]
      exact nil
    have behind : ∀ k, 0 < k → motive (us.drop k) := by
      intro k pos
      have long := List.length_pos_iff.mpr empty
      refine ih (us.drop k).length ?_ (us.drop k) rfl
      rw [List.length_drop]
      omega
    have here := fits us empty
    cases found : attempt us with
    | mention name length =>
      rw [found] at here
      exact mention us name length empty found here (behind length here.pos)
    | nothing places =>
      rw [found] at here
      exact nothing us places empty found here.1 here.2 (behind places here.1)

/-- The span that the search gives for a mention behind a front part is that of its
name. -/
theorem start_of_fits {name us : List α} {length : Nat}
    (h : (Attempt.mention name length).Fits closing us) (front : List α) :
    ∃ opening close rest, us = opening ++ (name ++ (close ++ rest)) ∧
      us.take length = opening ++ (name ++ close) ∧ close.length = closing ∧
      (∀ u ∈ close, code u < 0x80) ∧
      front.length + length - (name.length + closing) = (front ++ opening).length := by
  obtain ⟨_, opening, close, rest, rfl, rfl, ascii, rfl⟩ := h
  refine ⟨opening, close, rest, rfl, ?_, rfl, ascii, ?_⟩
  · rw [← List.append_assoc name, ← List.append_assoc, ← List.length_append, ← List.length_append]
    exact List.take_left
  · rw [List.length_append]
    omega

omit [CodeUnit α] in
theorem length_append_take {n : Nat} {us : List α} (le : n ≤ us.length) (front : List α) :
    (front ++ us.take n).length = front.length + n := by
  rw [List.length_append, List.length_take_of_le le]

omit [CodeUnit α] in
theorem append_take_append_drop (n : Nat) (us front : List α) :
    front ++ us.take n ++ us.drop n = front ++ us := by
  rw [List.append_assoc, List.take_append_drop]

theorem namesFrom_eq_spansFrom (fits : ∀ us, us ≠ [] → (attempt us).Fits closing us)
    (us front : List α) :
    namesFrom attempt 0 us =
      (spansFrom attempt closing front.length 0 us).map (·.slice (front ++ us)) := by
  induction us using search_induction fits generalizing front with
  | nil => rfl
  | mention us name length nonempty found here ih =>
    obtain ⟨names, spans⟩ := search_of_mention closing front.length nonempty here.pos found
    obtain ⟨opening, close, rest, parts, _, _, _, start⟩ := start_of_fits here front
    have sliced : Span.slice ⟨front.length + length - (name.length + closing), name.length⟩
        (front ++ us) = name := by
      rw [start, parts, ← List.append_assoc]
      exact Span.slice_append _ _ _
    have later := ih (front ++ us.take length)
    rw [length_append_take here.le, append_take_append_drop] at later
    rw [names, spans, List.map_cons, sliced, later]
  | nothing us places nonempty found pos le ih =>
    obtain ⟨names, spans⟩ := search_of_nothing closing front.length nonempty pos found
    have later := ih (front ++ us.take places)
    rw [length_append_take le, append_take_append_drop] at later
    rw [names, spans, later]

/-- The spans lie in the units that are searched, and follow one another. -/
theorem spansFrom_ordered (fits : ∀ us, us ≠ [] → (attempt us).Fits closing us)
    (us : List α) (place : Nat) :
    (∀ s ∈ spansFrom attempt closing place 0 us,
      place ≤ s.start ∧ 0 < s.length ∧ s.stop ≤ place + us.length) ∧
    (spansFrom attempt closing place 0 us).Pairwise fun s t => s.stop ≤ t.start := by
  induction us using search_induction fits generalizing place with
  | nil => exact ⟨by simp [spansFrom], List.Pairwise.nil⟩
  | mention us name length nonempty found here ih =>
    have long := List.length_pos_iff.mpr here.1
    have le := here.le
    obtain ⟨_, opening, close, rest, _, _, _, len⟩ := here
    obtain ⟨within, ordered⟩ := ih (place + length)
    rw [(search_of_mention _ _ nonempty (by omega) found).2]
    rw [List.length_drop] at within
    constructor
    · intro s hs
      rcases List.mem_cons.mp hs with rfl | hs
      · refine ⟨?_, long, ?_⟩
        · show place ≤ place + length - (name.length + closing)
          omega
        · show place + length - (name.length + closing) + name.length ≤ place + us.length
          omega
      · obtain ⟨after, long', before⟩ := within s hs
        exact ⟨by omega, long', by omega⟩
    · refine List.pairwise_cons.mpr ⟨?_, ordered⟩
      intro s hs
      have after := (within s hs).1
      show place + length - (name.length + closing) + name.length ≤ s.start
      omega
  | nothing us places nonempty found pos le ih =>
    obtain ⟨within, ordered⟩ := ih (place + places)
    rw [(search_of_nothing _ _ nonempty pos found).2]
    refine ⟨?_, ordered⟩
    intro s hs
    obtain ⟨after, long', before⟩ := within s hs
    rw [List.length_drop] at before
    exact ⟨by omega, long', by omega⟩

end

/-- The spans of the names that a source in the format mentions, in the order of the
text. -/
def SourceFormat.spans (f : SourceFormat) (text : List α) : List Span :=
  spansFrom f.attempt f.closing 0 0 text

/-- **The names that a text mentions are what stands in its spans.** -/
theorem SourceFormat.mentions_eq_spans (f : SourceFormat) (text : List α) :
    f.mentions text = (f.spans text).map (·.slice text) :=
  namesFrom_eq_spansFrom (fun _ nonempty => f.attempt_fits nonempty) text []

theorem SourceFormat.pairwise_spans (f : SourceFormat) (text : List α) :
    (f.spans text).Pairwise fun s t => s.stop ≤ t.start :=
  (spansFrom_ordered (fun _ nonempty => f.attempt_fits nonempty) text 0).2

theorem SourceFormat.stop_le_length {f : SourceFormat} {text : List α} {s : Span}
    (h : s ∈ f.spans text) : s.stop ≤ text.length := by
  have within := (spansFrom_ordered (fun _ nonempty => f.attempt_fits nonempty) text 0).1 s h
  rw [Nat.zero_add] at within
  exact within.2.2

/-! ### Spans in a spelling -/

/-- What a pattern says of the units at a place, it says of their spelling: it finds
the same mention there, or the search passes over the spelling of the places that were
passed over. -/
structure Follows (spell : α → List β) (attempt : List α → Attempt α)
    (attempt' : List β → Attempt β) (us : List α) : Prop where
  mention : ∀ {name length}, attempt us = .mention name length →
    attempt' (us.flatMap spell) =
      .mention (name.flatMap spell) ((us.take length).flatMap spell).length
  nothing : ∀ {places}, attempt us = .nothing places → ∀ closing place,
    spansFrom attempt' closing place 0 (us.flatMap spell) =
      spansFrom attempt' closing (place + ((us.take places).flatMap spell).length) 0
        ((us.drop places).flatMap spell)

variable {spell : α → List β} (h : Spells spell) {c : Char} {us : List α}

omit [CodeUnit α] [CodeUnit β] in
theorem flatMap_take_append_drop (n : Nat) (us : List α) :
    (us.take n).flatMap spell ++ (us.drop n).flatMap spell = us.flatMap spell := by
  rw [← List.flatMap_append, List.take_append_drop]

omit [CodeUnit α] [CodeUnit β] in
theorem take_length_flatMap (n : Nat) (us : List α) :
    (us.flatMap spell).take ((us.take n).flatMap spell).length = (us.take n).flatMap spell := by
  rw [← flatMap_take_append_drop n us, List.take_left]

omit [CodeUnit α] [CodeUnit β] in
theorem drop_length_flatMap (n : Nat) (us : List α) :
    (us.flatMap spell).drop ((us.take n).flatMap spell).length = (us.drop n).flatMap spell := by
  rw [← flatMap_take_append_drop n us, List.drop_left]

include h

theorem flatMap_ne_nil (nonempty : us ≠ []) : us.flatMap spell ≠ [] := by
  intro empty
  have same := isEmpty_flatMap h us
  rw [empty] at same
  exact nonempty (List.isEmpty_iff.mp same.symm)

theorem spansFrom_flatMap {attempt : List α → Attempt α} {attempt' : List β → Attempt β}
    {closing : Nat} (fits : ∀ us, us ≠ [] → (attempt us).Fits closing us)
    (follows : ∀ t, t <:+ us → t ≠ [] → Follows spell attempt attempt' t) (front : List α) :
    spansFrom attempt' closing (front.flatMap spell).length 0 (us.flatMap spell) =
      (spansFrom attempt closing front.length 0 us).map (·.spelled spell (front ++ us)) := by
  induction us using search_induction fits generalizing front with
  | nil => rfl
  | mention us name length nonempty found here ih =>
    have found' := (follows us (List.suffix_refl us) nonempty).mention found
    have later := ih (fun t ht => follows t (ht.trans (List.drop_suffix _ _)))
      (front ++ us.take length)
    rw [length_append_take here.le, append_take_append_drop, List.flatMap_append,
      List.length_append] at later
    obtain ⟨opening, close, rest, parts, taken, closed, ascii, start⟩ := start_of_fits here front
    -- the closing units are spelled one for one, so as many stand behind the name
    have width : ((us.take length).flatMap spell).length =
        (opening.flatMap spell).length + ((name.flatMap spell).length + closing) := by
      rw [taken, List.flatMap_append, List.flatMap_append, List.length_append, List.length_append,
        length_flatMap_of_low h ascii, closed]
    have pos := List.length_pos_iff.mpr (flatMap_ne_nil h here.1)
    have head : Span.spelled spell (front ++ us)
        ⟨front.length + length - (name.length + closing), name.length⟩ =
        ⟨(front.flatMap spell).length + ((us.take length).flatMap spell).length -
          ((name.flatMap spell).length + closing), (name.flatMap spell).length⟩ := by
      rw [start, parts, ← List.append_assoc, Span.spelled, Span.slice_append, List.take_left,
        ← parts, width, List.flatMap_append, List.length_append, ← Nat.add_assoc,
        Nat.add_sub_cancel]
    rw [(search_of_mention _ _ (flatMap_ne_nil h nonempty) (by omega) found').2,
      (search_of_mention _ _ nonempty here.pos found).2, drop_length_flatMap, later, List.map_cons,
      head]
  | nothing us places nonempty found pos le ih =>
    have later := ih (fun t ht => follows t (ht.trans (List.drop_suffix _ _)))
      (front ++ us.take places)
    rw [length_append_take le, append_take_append_drop, List.flatMap_append,
      List.length_append] at later
    rw [(search_of_nothing _ _ nonempty pos found).2, ← later]
    exact (follows us (List.suffix_refl us) nonempty).nothing found closing _

/-! ### The patterns in a spelling -/

omit h [CodeUnit α] in
/-- The search for literals passes over units whose opener does not begin there. -/
theorem spansFrom_append {opener? : List β → Option Nat} {bs : List β}
    (closed : ∀ b ∈ bs, ∀ rest, opener? (b :: rest) = none) (closing place : Nat)
    (rest : List β) :
    spansFrom (literalAt opener?) closing place 0 (bs ++ rest) =
      spansFrom (literalAt opener?) closing (place + bs.length) 0 rest := by
  induction bs generalizing place with
  | nil => rfl
  | cons b bs ih =>
    obtain ⟨first, later⟩ := List.forall_mem_cons.mp closed
    have nothing : literalAt opener? (b :: (bs ++ rest)) = .nothing 1 := by
      rw [literalAt, first]
    rw [List.cons_append, (search_of_nothing _ _ (List.cons_ne_nil b _) Nat.one_pos nothing).2]
    show spansFrom (literalAt opener?) closing (place + 1) 0 (bs ++ rest) = _
    rw [ih later, List.length_cons, Nat.add_assoc, Nat.add_comm 1]

omit h [CodeUnit β] in
theorem eq_of_literalAt {opener? : List α → Option Nat} {name : List α} {length : Nat}
    (found : literalAt opener? us = .mention name length) :
    ∃ n, opener? us = some n ∧ quotedAt (us.drop n) = some name ∧
      length = n + (name.length + 1) := by
  rw [literalAt] at found
  split at found
  · cases found
  · rename_i n opens
    split at found
    · cases found
    · rename_i quoted
      cases found
      exact ⟨n, opens, quoted, Nat.add_assoc n _ 1⟩

omit h [CodeUnit β] in
theorem literalAt_eq_nothing {opener? : List α → Option Nat} {places : Nat}
    (found : literalAt opener? us = .nothing places) :
    places = 1 ∧ ∀ n, opener? us = some n → quotedAt (us.drop n) = none := by
  rw [literalAt] at found
  split at found
  · rename_i closed
    cases found
    exact ⟨rfl, fun n opens => by rw [closed] at opens; cases opens⟩
  · rename_i n opens
    split at found
    · rename_i unquoted
      cases found
      refine ⟨rfl, fun m opens' => ?_⟩
      rw [opens] at opens'
      cases opens'
      exact unquoted
    · cases found

/-- A pattern of code finds in a spelling what it finds in the text, if its opener
does. -/
theorem literalAt_follows {opener? : List α → Option Nat} {opener?' : List β → Option Nat}
    (opener : SameOpener spell opener? opener?' us)
    (closed : ∀ b, 0x80 ≤ code b → ∀ rest, opener?' (b :: rest) = none)
    (nonempty : us ≠ []) : Follows spell (literalAt opener?) (literalAt opener?') us := by
  have quotes : ∀ {n}, opener? us = some n →
      quotedAt ((us.flatMap spell).drop n) = (quotedAt (us.drop n)).map (·.flatMap spell) := by
    intro n opens
    rw [drop_flatMap h (opener.low opens), quotedAt_flatMap h]
  constructor
  · intro name length found
    obtain ⟨n, opens, quoted, rfl⟩ := eq_of_literalAt found
    obtain ⟨_, quote, more, rest, ascii⟩ := eq_of_quotedAt quoted
    obtain ⟨b, e, _⟩ := h.ascii quote ascii
    have taken : us.take (n + (name.length + 1)) = us.take n ++ (name ++ [quote]) := by
      rw [List.take_add, rest, List.take_length_add_append]
      rfl
    have width : ((us.take (n + (name.length + 1))).flatMap spell).length =
        n + (name.flatMap spell).length + 1 := by
      rw [taken, List.flatMap_append, List.flatMap_append, List.length_append, List.length_append,
        length_flatMap_of_low h (opener.low opens), List.length_take_of_le (le_of_quotedAt quoted),
        List.flatMap_singleton, e, Nat.add_assoc]
      rfl
    rw [literalAt, opener.same, opens, width]
    dsimp only
    rw [quotes opens, quoted]
    rfl
  · intro places found closing place
    obtain ⟨rfl, unquoted⟩ := literalAt_eq_nothing found
    obtain ⟨u, us, rfl⟩ := List.exists_cons_of_ne_nil nonempty
    show spansFrom _ closing place 0 ((u :: us).flatMap spell) =
      spansFrom _ closing (place + ([u].flatMap spell).length) 0 (us.flatMap spell)
    rw [List.flatMap_singleton]
    by_cases low : code u < 0x80
    · obtain ⟨b, e, _⟩ := h.ascii u low
      have nothing : literalAt opener?' ((u :: us).flatMap spell) = .nothing 1 := by
        rw [literalAt, opener.same]
        cases opens : opener? (u :: us) with
        | none => rfl
        | some n =>
          dsimp only
          rw [quotes opens, unquoted n opens]
          rfl
      rw [(search_of_nothing _ _ (flatMap_ne_nil h nonempty) Nat.one_pos nothing).2,
        List.flatMap_cons, e]
      rfl
    · obtain ⟨b, bs, e, first, later⟩ := h.beyond u (Nat.le_of_not_lt low)
      rw [List.flatMap_cons, e]
      refine spansFrom_append ?_ closing place _
      intro v hv
      rcases List.mem_cons.mp hv with rfl | hv
      · exact closed v first
      · exact closed v (later v hv)

omit h [CodeUnit β] in
theorem eq_of_fileNameAt {u : α} {name : List α} {length : Nat}
    (found : fileNameAt c (u :: us) = .mention name length) :
    is u c = false ∧ ∃ n, lastExtension? c us = some n ∧ length = n + 1 ∧
      name = (u :: us).take length := by
  rw [fileNameAt] at found
  split at found
  · cases found
  · rename_i inside
    split at found
    · rename_i n last
      cases found
      exact ⟨eq_false_of_ne_true inside, n, last, rfl, rfl⟩
    · cases found

omit h [CodeUnit β] in
theorem fileNameAt_eq_nothing {u : α} {places : Nat}
    (found : fileNameAt c (u :: us) = .nothing places) :
    (is u c = true ∧ places = 1) ∨ (is u c = false ∧ lastExtension? c us = none ∧
      places = (us.takeWhile (!is · c)).length + 1) := by
  rw [fileNameAt] at found
  split at found
  · rename_i delimiter
    cases found
    exact .inl ⟨delimiter, rfl⟩
  · rename_i inside
    split at found
    · cases found
    · rename_i last
      cases found
      exact .inr ⟨eq_false_of_ne_true inside, last, rfl⟩

/-- A pattern of documents finds in a spelling what it finds in the text. -/
theorem fileNameAt_follows (hc : c.toNat < 0x80) (nonempty : us ≠ []) :
    Follows spell (fileNameAt c) (fileNameAt c) us := by
  obtain ⟨u, us, rfl⟩ := List.exists_cons_of_ne_nil nonempty
  obtain ⟨b, bs, e, high, looks⟩ := exists_head h u
  have last : lastExtension? c (bs ++ us.flatMap spell) =
      (lastExtension? c us).map fun n => ((us.take n).flatMap spell).length + bs.length := by
    rw [lastExtension?_append hc high, lastExtension?_flatMap h hc, Option.map_map]
    rfl
  constructor
  · intro name length found
    obtain ⟨inside, n, extension, rfl, rfl⟩ := eq_of_fileNameAt found
    have taken : (bs ++ us.flatMap spell).take (((us.take n).flatMap spell).length + bs.length) =
        bs ++ (us.take n).flatMap spell := by
      rw [Nat.add_comm, List.take_length_add_append, take_length_flatMap]
    rw [List.take_succ_cons, List.flatMap_cons, List.flatMap_cons, e, List.cons_append, fileNameAt,
      looks c hc, inside, last, extension]
    show Attempt.mention (b :: (bs ++ us.flatMap spell).take _) _ = _
    rw [taken]
    congr 1
    simp only [List.cons_append, List.length_cons, List.length_append]
    omega
  · intro places found closing place
    have nothing : fileNameAt c ((u :: us).flatMap spell) =
        .nothing (((u :: us).take places).flatMap spell).length := by
      rcases fileNameAt_eq_nothing found with ⟨delimiter, rfl⟩ | ⟨inside, none, rfl⟩
      · have low : code u < 0x80 := by
          rw [is_eq_true_iff.mp delimiter]
          exact hc
        obtain ⟨v, single, _⟩ := h.ascii u low
        rw [single] at e
        cases e
        rw [List.flatMap_cons, single, List.singleton_append, fileNameAt, looks c hc, delimiter,
          if_pos rfl, List.take_succ_cons, List.take_zero, List.flatMap_singleton, single]
        rfl
      · have passed : (bs ++ us.flatMap spell).takeWhile (!is · c) =
            bs ++ (us.takeWhile (!is · c)).flatMap spell := by
          rw [List.takeWhile_append_of_pos (not_delimiter hc high), takeWhile_flatMap h hc]
        have run : us.take (us.takeWhile (!is · c)).length = us.takeWhile (!is · c) :=
          (List.prefix_iff_eq_take.mp (List.takeWhile_prefix _)).symm
        rw [List.take_succ_cons, run, List.flatMap_cons, List.flatMap_cons, e, List.cons_append,
          fileNameAt, looks c hc, inside, last, none]
        show Attempt.nothing (((bs ++ us.flatMap spell).takeWhile (!is · c)).length + 1) = _
        rw [passed]
        rfl
    have pos := fileNameAt_fits c (flatMap_ne_nil h nonempty)
    rw [nothing] at pos
    rw [(search_of_nothing _ _ (flatMap_ne_nil h nonempty) pos.1 nothing).2, drop_length_flatMap]

/-! ### The formats -/

theorem SourceFormat.attempt_follows (f : SourceFormat) (plain : f = .swift → IsPlainBehind us)
    (nonempty : us ≠ []) : Follows spell f.attempt f.attempt us := by
  cases f with
  | objectiveC =>
    exact literalAt_follows h (objectiveCOpener?_flatMap h us)
      (fun _ high => objectiveCOpener?_beyond high) nonempty
  | swift =>
    exact literalAt_follows h (swiftOpener?_flatMap h (plain rfl))
      (fun _ high => swiftOpener?_beyond high) nonempty
  | interface => exact fileNameAt_follows h (by decide) nonempty
  | propertyList => exact fileNameAt_follows h (by decide) nonempty

/-- **A spelling has its mentions where the text has them.** -/
theorem SourceFormat.spans_flatMap (f : SourceFormat) {text : List α}
    (plain : f = .swift → PlainOpeners text) :
    f.spans (text.flatMap spell) = (f.spans text).map (·.spelled spell text) := by
  refine spansFrom_flatMap h (fun _ nonempty => f.attempt_fits nonempty) ?_ []
  intro t ht nonempty
  refine f.attempt_follows h ?_ nonempty
  exact fun swift => plain swift t ((List.mem_tails t text).mpr ht)

/-- **A spelling mentions the names that the text mentions, spelled.** -/
theorem SourceFormat.mentions_flatMap (f : SourceFormat) {text : List α}
    (plain : f = .swift → PlainOpeners text) :
    f.mentions (text.flatMap spell) = (f.mentions text).map (·.flatMap spell) := by
  rw [f.mentions_eq_spans, f.mentions_eq_spans, f.spans_flatMap h plain, List.map_map, List.map_map]
  exact List.map_congr_left fun s _ => s.slice_spelled spell text

end AssetAudit

/-
AssetAudit/Proofs/EveryPlace.lean

What the search passes over.

Where no mention begins, a pattern of documents tells that none begins further on in
the same run either, and the search goes on behind the run.  A search that takes the
pattern at its word for one place only, and then tries it at the next
(`Attempt.onePlace`), finds the same names.

What carries this is a fact about runs: where nothing ends in `.png` before the next
delimiter, nothing does from a later place before that delimiter
(`lastExtension?_drop`).  So wherever a pattern passes over some places, it finds no
mention when it is tried there (`SourceFormat.attempt_drop`), and a search from place
to place comes to where the other one goes on (`namesFrom_drop`).

Main result: `SourceFormat.mentions_eq_everyPlace`.
-/
import AssetAudit.Proofs.Spans

namespace AssetAudit

open CodeUnit

variable {α : Type}

/-- What a pattern says, where it is believed for one place only. -/
def Attempt.onePlace : Attempt α → Attempt α
  | .mention name length => .mention name length
  | .nothing _ => .nothing 1

/-! ### From place to place -/

section

variable {attempt : List α → Attempt α} {us : List α}

/-- A search that takes one place at a time comes behind places where no mention
begins. -/
theorem namesFrom_drop {places : Nat}
    (nothing : ∀ k < places, attempt (us.drop k) = .nothing 1) :
    namesFrom attempt 0 us = namesFrom attempt 0 (us.drop places) := by
  induction places with
  | zero => rfl
  | succ k ih =>
    rw [ih fun j before => nothing j (Nat.lt_succ_of_lt before), ← List.drop_drop]
    by_cases empty : us.drop k = []
    · rw [empty, List.drop_nil]
    · exact (search_of_nothing 0 0 empty Nat.one_pos (nothing k (Nat.lt_succ_self k))).1

variable {closing : Nat} [CodeUnit α]

/-- If a pattern finds no mention at the places that it passes over, trying it at
every place finds the same names. -/
theorem namesFrom_onePlace (fits : ∀ us, us ≠ [] → (attempt us).Fits closing us)
    (passes : ∀ {us places k}, attempt us = .nothing places → k < places →
      ∃ later, attempt (us.drop k) = .nothing later) :
    namesFrom (fun us => (attempt us).onePlace) 0 us = namesFrom attempt 0 us := by
  induction us using search_induction fits with
  | nil => rfl
  | mention us name length nonempty found here ih =>
    have found' : (attempt us).onePlace = .mention name length := by
      rw [found]
      rfl
    rw [(search_of_mention closing 0 nonempty here.pos found').1,
      (search_of_mention closing 0 nonempty here.pos found).1, ih]
  | nothing us places nonempty found pos le ih =>
    have nothing : ∀ k < places, (attempt (us.drop k)).onePlace = .nothing 1 := by
      intro k before
      obtain ⟨later, again⟩ := passes found before
      rw [again]
      rfl
    rw [namesFrom_drop nothing, (search_of_nothing closing 0 nonempty pos found).1, ih]

end

/-! ### The patterns -/

variable [CodeUnit α] {us : List α} {places k : Nat}

/-- A run in which nothing ends in `.png` stays so where its front is left out. -/
theorem lastExtension?_drop {delimiter : Char} (last : lastExtension? delimiter us = none)
    (inside : k ≤ (us.takeWhile (!is · delimiter)).length) :
    lastExtension? delimiter (us.drop k) = none := by
  induction us generalizing k with
  | nil =>
    rw [List.drop_nil]
    exact last
  | cons u us ih =>
    cases k with
    | zero => exact last
    | succ k =>
      rw [List.takeWhile_cons] at inside
      cases other : is u delimiter with
      | true =>
        rw [other] at inside
        cases inside
      | false =>
        rw [other] at inside
        rw [lastExtension?, other, if_neg Bool.false_ne_true] at last
        cases later : lastExtension? delimiter us with
        | some n =>
          rw [later] at last
          cases last
        | none => exact ih later (Nat.le_of_succ_le_succ inside)

theorem fileNameAt_drop {delimiter : Char} (found : fileNameAt delimiter us = .nothing places)
    (before : k < places) : ∃ later, fileNameAt delimiter (us.drop k) = .nothing later := by
  cases us with
  | nil => exact ⟨1, by rw [List.drop_nil, fileNameAt]⟩
  | cons u us =>
    rcases fileNameAt_eq_nothing found with ⟨_, rfl⟩ | ⟨_, last, rfl⟩
    · obtain rfl := Nat.lt_one_iff.mp before
      exact ⟨1, found⟩
    · cases here : (u :: us).drop k with
      | nil => exact ⟨1, rfl⟩
      | cons v rest =>
        have behind : rest = us.drop k := by
          calc rest = ((u :: us).drop k).tail := by rw [here, List.tail_cons]
            _ = us.drop k := by rw [List.tail_drop, List.drop_succ_cons]
        rw [fileNameAt, behind, lastExtension?_drop last (Nat.le_of_lt_succ before)]
        split
        · exact ⟨1, rfl⟩
        · exact ⟨_, rfl⟩

theorem literalAt_drop {opener? : List α → Option Nat}
    (found : literalAt opener? us = .nothing places) (before : k < places) :
    ∃ later, literalAt opener? (us.drop k) = .nothing later := by
  obtain ⟨rfl, _⟩ := literalAt_eq_nothing found
  obtain rfl := Nat.lt_one_iff.mp before
  exact ⟨1, found⟩

/-- At the places that a format's pattern passes over, it finds no mention. -/
theorem SourceFormat.attempt_drop (f : SourceFormat) (found : f.attempt us = .nothing places)
    (before : k < places) : ∃ later, f.attempt (us.drop k) = .nothing later := by
  cases f with
  | objectiveC => exact literalAt_drop found before
  | swift => exact literalAt_drop found before
  | interface => exact fileNameAt_drop found before
  | propertyList => exact fileNameAt_drop found before

/-- **Trying the pattern at every place finds the mentions of a text**: no name is lost
by what the search passes over. -/
theorem SourceFormat.mentions_eq_everyPlace (f : SourceFormat) (text : List α) :
    f.mentions text = namesFrom (fun us => (f.attempt us).onePlace) 0 text :=
  (namesFrom_onePlace (fun _ nonempty => f.attempt_fits nonempty) f.attempt_drop).symm

end AssetAudit

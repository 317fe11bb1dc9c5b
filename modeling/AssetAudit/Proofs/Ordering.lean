/-
AssetAudit/Proofs/Ordering.lean

The order in which a walk takes the entries of a directory.

A walk sorts what it has found, not what it goes through.  It comes to the
same to sort the listing itself first, `byName listing`, and to go through it
entry by entry (`gather_foundBelow`): a directory whose names are all
different is then gone through in strictly ascending order of the names
(`byName_ascending`).
-/
import AssetAudit.Proofs.Outcomes
import AssetAudit.Proofs.Tree
import AssetAudit.Walk.Basic

namespace AssetAudit

/-! ### Sorting before and after -/

theorem insertByName_map {β γ : Type} (g : β → γ) (item : Bytes × β) (items : List (Bytes × β)) :
    insertByName (item.1, g item.2) (items.map fun p => (p.1, g p.2)) =
      (insertByName item items).map fun p => (p.1, g p.2) := by
  induction items with
  | nil => rfl
  | cons other rest ih =>
    rw [List.map_cons, insertByName, insertByName]
    split
    · rfl
    · rw [ih]
      rfl

/-- Sorting looks at the names alone. -/
theorem sortByName_map {β γ : Type} (g : β → γ) (items : List (Bytes × β)) :
    sortByName (items.map fun p => (p.1, g p.2)) =
      (sortByName items).map fun p => (p.1, g p.2) := by
  induction items with
  | nil => rfl
  | cons item rest ih =>
    show insertByName _ (sortByName _) = _
    rw [ih, insertByName_map]
    rfl

/-- The entries of a listing in the order of their names. -/
def byName (listing : List Entry) : List Entry :=
  (sortByName (listing.map fun e => (e.name, e))).map Prod.snd

theorem byName_perm (listing : List Entry) : (byName listing).Perm listing := by
  have same := (sortByName_perm (listing.map fun e => (e.name, e))).map Prod.snd
  rw [List.map_map] at same
  rw [byName]
  exact same.trans (.of_eq (List.map_id listing))

theorem byName_ascending {listing : List Entry} (h : (namesIn listing).Nodup) :
    (byName listing).Pairwise (·.name < ·.name) := by
  have named : ∀ p ∈ sortByName (listing.map fun e => (e.name, e)), p.1 = p.2.name := by
    intro p hp
    obtain ⟨e, _, rfl⟩ := List.mem_map.mp ((sortByName_perm _).mem_iff.mp hp)
    rfl
  have sorted : (byName listing).Pairwise (·.name ≤ ·.name) := by
    apply List.pairwise_map.mpr
    apply (sortByName_sorted _).imp_of_mem
    intro p q hp hq le
    rw [← named p hp, ← named q hq]
    exact le
  have apart : (byName listing).Pairwise (·.name ≠ ·.name) :=
    List.pairwise_map.mp (((byName_perm listing).map Entry.name).nodup_iff.mpr h)
  refine sorted.imp₂ ?_ apart
  intro e d le ne
  exact Std.lt_of_le_of_ne le ne

/-! ### What is found in that order -/

namespace Walk

variable {w : Walk} {base : Bytes}

theorem foundBelow_eq_map (listing : List Entry) :
    w.foundBelow base listing = listing.map fun e => (e.name, w.foundAt base e) := by
  induction listing with
  | nil => rw [foundBelow, List.map_nil]
  | cons e rest ih => rw [foundBelow, List.map_cons, ih]

/-- What is found below a directory is what is found at its entries, one
after the other. -/
theorem gather_foundBelow (listing : List Entry) :
    gather (w.foundBelow base listing) =
      ((byName listing).mapM (w.foundAt base)).map List.flatten := by
  -- both sort pairs of a name and what belongs to it, an entry or a result
  have pairs : w.foundBelow base listing =
      (listing.map fun e => (e.name, e)).map fun p => (p.1, w.foundAt base p.2) := by
    rw [foundBelow_eq_map, List.map_map]
    rfl
  rw [gather, pairs, sortByName_map, byName, List.mapM_map, List.mapM_map]
  rfl

end Walk

end AssetAudit

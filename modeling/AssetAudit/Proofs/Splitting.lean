/-
AssetAudit/Proofs/Splitting.lean

Lists that are cut at separators.

What stands between separators holds none of them
(`forall_of_mem_splitOnP`).  Pieces that are each followed by a separator can
be read back by cutting exactly if none of them holds one
(`splitOn_terminated_iff`); behind the last separator there is nothing then.
-/

namespace AssetAudit

variable {α : Type}

/-- What stands between separators holds none. -/
theorem forall_of_mem_splitOnP {p : α → Bool} {xs piece : List α} (h : piece ∈ xs.splitOnP p) :
    ∀ x ∈ piece, p x = false := by
  induction xs generalizing piece with
  | nil =>
    rw [List.splitOnP_nil, List.mem_singleton] at h
    simp [h]
  | cons y xs ih =>
    rw [List.splitOnP_cons_eq_if_modifyHead] at h
    split at h
    · rcases List.mem_cons.mp h with rfl | h
      · simp
      · exact ih h
    · -- the first piece of the rest gets longer by `y`, the others stay
      rename_i hy
      obtain ⟨first, others, e⟩ := List.exists_cons_of_ne_nil (List.splitOnP_ne_nil p xs)
      rw [e, List.modifyHead_cons, List.mem_cons] at h
      rcases h with rfl | h
      · exact List.forall_mem_cons.mpr ⟨by simpa using hy, ih (e ▸ List.mem_cons_self ..)⟩
      · exact ih (e ▸ List.mem_cons_of_mem _ h)

section Terminated

variable [BEq α] [LawfulBEq α] {x : α}

/-- Pieces without separators are read back. -/
theorem splitOn_terminated {pieces : List (List α)} (h : ∀ piece ∈ pieces, x ∉ piece) :
    (pieces.flatMap (· ++ [x])).splitOn x = pieces ++ [[]] := by
  induction pieces with
  | nil => rfl
  | cons piece pieces ih =>
    obtain ⟨first, others⟩ := List.forall_mem_cons.mp h
    rw [List.flatMap_cons, List.append_assoc, List.singleton_append,
      List.splitOn_append_cons_self_of_not_mem first, ih others, List.cons_append]

/-- Pieces are read back exactly if none of them holds a separator. -/
theorem splitOn_terminated_iff {pieces : List (List α)} :
    (pieces.flatMap (· ++ [x])).splitOn x = pieces ++ [[]] ↔ ∀ piece ∈ pieces, x ∉ piece := by
  refine ⟨?_, splitOn_terminated⟩
  intro h piece mem held
  have read : piece ∈ (pieces.flatMap (· ++ [x])).splitOn x := h ▸ List.mem_append_left _ mem
  rw [List.splitOn_eq_splitOnP] at read
  have free := forall_of_mem_splitOnP read x held
  simp at free

end Terminated

end AssetAudit

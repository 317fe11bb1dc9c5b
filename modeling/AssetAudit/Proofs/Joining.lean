/-
AssetAudit/Proofs/Joining.lean

Joining the names of a location to a path.

Whatever the path they are joined to, the names end up behind it with single
slashes between them (`joinAll_cons_eq`).  So no two locations below one
directory have the same path (`joinAll_injective`).
-/
import AssetAudit.Path.Relative
import AssetAudit.Proofs.Tree

namespace AssetAudit

/-! ### Names of entries -/

namespace IsEntryName

variable {n : Bytes}

theorem ne_nil (h : IsEntryName n) : n ≠ [] := by
  rintro rfl
  cases h.1

theorem slash_not_mem (h : IsEntryName n) : (0x2F : UInt8) ∉ n := by
  intro mem
  have slash := h.2 0x2F mem
  cases slash

end IsEntryName

namespace Path

/-! ### Where names go -/

/-- What stands before a name that is joined to `base`: `base` and a slash,
unless `base` is empty or ends in one. -/
def front (base : Bytes) : Bytes :=
  if base.isEmpty || endsInSlash base then base else base ++ [0x2F]

theorem join_eq (base name : Bytes) : join base name = front base ++ name := by
  rw [join, joinWith, front]
  split
  · rfl
  · rw [List.append_assoc]
    rfl

theorem join_ne_nil {base n : Bytes} (h : IsEntryName n) : join base n ≠ [] := by
  rw [join_eq]
  exact List.append_ne_nil_of_right_ne_nil _ h.ne_nil

theorem endsInSlash_append {base n : Bytes} (h : IsEntryName n) :
    endsInSlash (base ++ n) = false := by
  rw [endsInSlash, List.getLast?_append, List.getLast?_eq_some_getLast h.ne_nil]
  exact h.2 _ (List.getLast_mem h.ne_nil)

/-- A path that ends in a name takes a slash before the next. -/
theorem front_join {base n : Bytes} (h : IsEntryName n) :
    front (join base n) = join base n ++ [0x2F] := by
  have written : (join base n).isEmpty = false := List.isEmpty_eq_false_iff.mpr (join_ne_nil h)
  have unslashed : endsInSlash (join base n) = false := by
    rw [join_eq]
    exact endsInSlash_append h
  rw [front, written, unslashed]
  rfl

/-! ### Whole locations -/

/-- The path of what is at a location below the directory at `base`. -/
def joinAll (base : Bytes) (l : Location) : Bytes :=
  l.foldl join base

@[simp] theorem joinAll_nil (base : Bytes) : joinAll base [] = base := rfl

@[simp] theorem joinAll_cons (base n : Bytes) (l : Location) :
    joinAll base (n :: l) = joinAll (join base n) l := rfl

/-- Joining only adds to a path. -/
theorem exists_joinAll_eq_append (base : Bytes) (l : Location) :
    ∃ more, joinAll base l = base ++ more := by
  induction l generalizing base with
  | nil => exact ⟨[], (List.append_nil base).symm⟩
  | cons n l ih =>
    obtain ⟨more, e⟩ := ih (join base n)
    rw [joinAll_cons, e, join_eq, front]
    split
    · exact ⟨n ++ more, List.append_assoc ..⟩
    · exact ⟨[0x2F] ++ n ++ more, by simp only [List.append_assoc]⟩

/-- The names stand behind the path, with slashes between them. -/
theorem joinAll_cons_eq {n : Bytes} {l : Location} (h : ∀ m ∈ n :: l, IsEntryName m)
    (base : Bytes) : joinAll base (n :: l) = front base ++ [0x2F].intercalate (n :: l) := by
  induction l generalizing base n with
  | nil => rw [joinAll_cons, joinAll_nil, join_eq, List.intercalate_singleton]
  | cons m l ih =>
    obtain ⟨hn, hl⟩ := List.forall_mem_cons.mp h
    rw [joinAll_cons, ih hl, front_join hn, join_eq, List.intercalate_cons_cons]
    simp only [List.append_assoc]

/-- The names can be read off again. -/
theorem splitOn_intercalate_slash {l : Location} (h : ∀ n ∈ l, IsEntryName n) (hl : l ≠ []) :
    ([0x2F].intercalate l).splitOn (0x2F : UInt8) = l :=
  List.splitOn_intercalate 0x2F (fun n hn => (h n hn).slash_not_mem) hl

theorem joinAll_ne_base {base n : Bytes} {l : Location} (h : ∀ m ∈ n :: l, IsEntryName m) :
    joinAll base (n :: l) ≠ base := by
  intro same
  have names : [0x2F].intercalate (n :: l) ≠ [] := by
    intro none
    have split := splitOn_intercalate_slash h (List.cons_ne_nil n l)
    rw [none] at split
    cases split
    exact (h [] (List.mem_cons_self ..)).ne_nil rfl
  -- at least one byte stands behind the base
  have longer := congrArg List.length same
  rw [joinAll_cons_eq h, List.length_append, front] at longer
  have written := List.length_pos_iff.mpr names
  split at longer
  · omega
  · rw [List.length_append] at longer
    omega

/-- Locations below one directory have paths of their own. -/
theorem joinAll_injective {base : Bytes} {l m : Location} (hl : ∀ n ∈ l, IsEntryName n)
    (hm : ∀ n ∈ m, IsEntryName n) (h : joinAll base l = joinAll base m) : l = m := by
  cases l with
  | nil =>
    cases m with
    | nil => rfl
    | cons n m => exact absurd h.symm (joinAll_ne_base hm)
  | cons n l =>
    cases m with
    | nil => exact absurd h (joinAll_ne_base hl)
    | cons k m =>
      rw [joinAll_cons_eq hl, joinAll_cons_eq hm] at h
      -- what stands behind the common front falls into the names again
      have names := congrArg (List.splitOn (0x2F : UInt8)) (List.append_cancel_left h)
      rw [splitOn_intercalate_slash hl (List.cons_ne_nil n l),
        splitOn_intercalate_slash hm (List.cons_ne_nil k m)] at names
      exact names

end Path

end AssetAudit

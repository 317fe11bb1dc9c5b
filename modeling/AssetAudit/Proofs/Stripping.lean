/-
AssetAudit/Proofs/Stripping.lean

Taking the root off a path again.

The names of a location are joined to a path as text, and a path is taken off
component by component.  What is left is the names with single slashes between
them, however the path in front of them is written (`stripWith?_joinAll`): inner
segments that say nothing and a slash at its end are passed over.

Both rest on how the segments of a joined path come about: those of the path in
front, less an empty last one, and then the names (`exists_segments_joinAll`).
-/
import AssetAudit.Proofs.Basename
import AssetAudit.Proofs.Joining

namespace AssetAudit.Path

variable {base n : Bytes} {l : Location}

/-! ### Segments of joined paths -/

theorem isSlash : CodeUnit.is (0x2F : UInt8) '/' = true := rfl

/-- The names are the segments of what they are joined to. -/
theorem segments_intercalate (h : ∀ m ∈ n :: l, IsEntryName m) :
    segments ([0x2F].intercalate (n :: l)) = n :: l := by
  induction l generalizing n with
  | nil =>
    rw [List.intercalate_singleton]
    exact segments_of_no_slash (h n (List.mem_cons_self ..)).2
  | cons m l ih =>
    obtain ⟨hn, hl⟩ := List.forall_mem_cons.mp h
    rw [List.intercalate_cons_cons, List.append_assoc, List.singleton_append,
      segments_append_slash isSlash, segments_of_no_slash hn.2, ih hl, List.singleton_append]

/-- A path that is joined to keeps its segments, but for an empty one at its
end. -/
theorem exists_segments_front (h : base ≠ []) :
    ∃ segs, segs ≠ [] ∧ (segments base = segs ∨ segments base = segs ++ [[]]) ∧
      ∀ c, segments (front base ++ c) = segs ++ segments c := by
  have written : base.isEmpty = false := List.isEmpty_eq_false_iff.mpr h
  by_cases ends : endsInSlash base = true
  · -- the last slash is the one that the names are put behind
    obtain ⟨d, slash, rfl⟩ := List.eq_nil_or_concat base |>.resolve_left h
    have is : CodeUnit.is slash '/' = true := by simpa [endsInSlash] using ends
    refine ⟨segments d, segments_ne_nil d, .inr ?_, ?_⟩
    · rw [List.concat_eq_append, segments_append_slash is, segments_nil]
    · intro c
      rw [front, ends, Bool.or_true, if_pos rfl, List.concat_eq_append, List.append_assoc,
        List.singleton_append, segments_append_slash is]
  · refine ⟨segments base, segments_ne_nil base, .inl rfl, ?_⟩
    intro c
    rw [front, written, Bool.false_or, if_neg ends, List.append_assoc, List.singleton_append,
      segments_append_slash isSlash]

/-- The segments of a joined path are those of the path in front, less an empty
one at its end, and the names. -/
theorem exists_segments_joinAll (h : base ≠ []) :
    ∃ segs, segs ≠ [] ∧ (segments base = segs ∨ segments base = segs ++ [[]]) ∧
      ∀ l, l ≠ [] → (∀ m ∈ l, IsEntryName m) → segments (joinAll base l) = segs ++ l := by
  obtain ⟨segs, some, own, behind⟩ := exists_segments_front h
  refine ⟨segs, some, own, ?_⟩
  intro l hl names
  obtain ⟨n, l, rfl⟩ := List.exists_cons_of_ne_nil hl
  rw [joinAll_cons_eq names, behind, segments_intercalate names]

/-! ### Readings of joined paths -/

/-- A name as it is read behind a path. -/
def readName (m : Bytes) : Reading UInt8 :=
  (m, some (.name m))

theorem map_innerReading (h : ∀ m ∈ l, IsEntryName m) :
    (l.map fun m => (m, innerReading m)) = l.map readName := by
  apply List.map_congr_left
  intro m hm
  rw [innerReading_of_proper (h m hm).1, readName]

/-- What is read of a joined path is what is read of the path in front, less
what says nothing at its end, and then the names. -/
theorem exists_readings_joinAll (h : base ≠ []) :
    ∃ shared, (∃ silent, (∀ r ∈ silent, r.2 = none) ∧ readings base = shared ++ silent) ∧
      ∀ l, l ≠ [] → (∀ m ∈ l, IsEntryName m) →
        readings (joinAll base l) = shared ++ l.map readName := by
  obtain ⟨segs, some, own, behind⟩ := exists_segments_joinAll h
  obtain ⟨s, rest, rfl⟩ := List.exists_cons_of_ne_nil some
  refine ⟨(s, firstReading s true) :: rest.map fun t => (t, innerReading t), ?_, ?_⟩
  · rcases own with own | own
    · refine ⟨[], by simp, ?_⟩
      rw [readings_of_segments own, List.append_nil]
      congr 2
      cases rest with
      | nil =>
        apply firstReading_eq
        rintro rfl
        exact h (eq_nil_of_segments own)
      | cons t rest => rfl
    · refine ⟨[([], none)], by simp, ?_⟩
      rw [List.cons_append] at own
      rw [readings_of_segments own, List.map_append, List.cons_append]
      congr 2
      cases rest <;> rfl
  · intro l hl names
    obtain ⟨n, l, rfl⟩ := List.exists_cons_of_ne_nil hl
    have segs := behind _ hl names
    rw [List.cons_append] at segs
    rw [readings_of_segments segs, List.map_append, map_innerReading names, List.cons_append]
    congr 2
    cases rest <;> rfl

/-! ### Taking components off -/

/-- Components are taken off a path that begins with them; what says nothing
between them and the rest may stay. -/
theorem exists_dropComponents_append (shared rest : List (Reading UInt8)) :
    ∃ silent, (∀ r ∈ silent, r.2 = none) ∧
      dropComponents (shared ++ rest) (shared.filterMap (·.2)) = some (silent ++ rest) := by
  induction shared with
  | nil => exact ⟨[], by simp, by rw [List.filterMap_nil, dropComponents]⟩
  | cons r shared ih =>
    obtain ⟨segment, reading⟩ := r
    obtain ⟨silent, nothing, e⟩ := ih
    cases reading with
    | some d =>
      refine ⟨silent, nothing, ?_⟩
      show dropComponents ((segment, some d) :: (shared ++ rest)) (d :: _) = _
      rw [dropComponents, if_pos rfl, e]
    | none =>
      show ∃ silent, _ ∧ dropComponents ((segment, none) :: (shared ++ rest))
        (shared.filterMap (·.2)) = _
      cases cs : shared.filterMap (·.2) with
      | nil =>
        -- no component is left to be taken off
        refine ⟨(segment, none) :: shared, ?_, rfl⟩
        rw [List.filterMap_eq_nil_iff] at cs
        exact List.forall_mem_cons.mpr ⟨rfl, cs⟩
      | cons c cs =>
        rw [cs] at e
        exact ⟨silent, nothing, e⟩

theorem dropWhile_isNone_of_silent {silent rest : List (Reading UInt8)}
    (h : ∀ r ∈ silent, r.2 = none) :
    (silent ++ rest).dropWhile (·.2.isNone) = rest.dropWhile (·.2.isNone) := by
  apply List.dropWhile_append_of_pos
  intro r hr
  rw [h r hr]
  rfl

theorem dropWhile_isNone_of_names {rs : List (Reading UInt8)} (h : ∀ r ∈ rs, r.2.isNone = false) :
    rs.dropWhile (·.2.isNone) = rs := by
  cases rs with
  | nil => rfl
  | cons r rs =>
    apply List.dropWhile_cons_of_neg
    rw [h r (List.mem_cons_self ..)]
    exact Bool.false_ne_true

/-- Of what says nothing and names behind it, the names are kept. -/
theorem trim_append_names {silent : List (Reading UInt8)} (h : ∀ r ∈ silent, r.2 = none)
    (l : Location) : trim (silent ++ l.map readName) = l.map readName := by
  have names : ∀ r ∈ l.map readName, r.2.isNone = false := by
    rw [List.forall_mem_map]
    exact fun _ _ => rfl
  have back : ∀ r ∈ (l.map readName).reverse, r.2.isNone = false :=
    fun r hr => names r (List.mem_reverse.mp hr)
  rw [trim, dropWhile_isNone_of_silent h, dropWhile_isNone_of_names names,
    dropWhile_isNone_of_names back, List.reverse_reverse]

theorem textOf_names (l : Location) : textOf 0x2F (l.map readName) = [0x2F].intercalate l := by
  have names : (l.map readName).map (·.1) = l := by
    rw [List.map_map]
    exact List.map_id l
  cases l with
  | nil => rfl
  | cons n l =>
    show [0x2F].intercalate (((n :: l).map readName).map (·.1)) = _
    rw [names]

/-- **Taking the root off undoes joining it.**  A joined path is under the one in
front, and what is left are the names, with single slashes between them. -/
theorem stripWith?_joinAll (h : base ≠ []) (names : ∀ m ∈ l, IsEntryName m) :
    stripWith? 0x2F base (joinAll base l) = some ([0x2F].intercalate l) := by
  obtain ⟨shared, ⟨silent, nothing, own⟩, behind⟩ := exists_readings_joinAll h
  have cs : components base = shared.filterMap (·.2) := by
    rw [components, own, List.filterMap_append, List.filterMap_eq_nil_iff.mpr nothing,
      List.append_nil]
  -- without names the silent end of the path in front is there instead
  have read : ∃ back, (∀ r ∈ back, r.2 = none) ∧
      readings (joinAll base l) = shared ++ (back ++ l.map readName) := by
    cases l with
    | nil => exact ⟨silent, nothing, by rw [joinAll_nil, own, List.map_nil, List.append_nil]⟩
    | cons n l => exact ⟨[], by simp, behind _ (List.cons_ne_nil n l) names⟩
  obtain ⟨back, quiet, read⟩ := read
  obtain ⟨front, still, off⟩ := exists_dropComponents_append shared (back ++ l.map readName)
  have silent : ∀ r ∈ front ++ back, r.2 = none := by
    intro r hr
    exact (List.mem_append.mp hr).elim (still r) (quiet r)
  rw [stripWith?, read, cs, off, ← List.append_assoc, Option.map_some, trim_append_names silent,
    textOf_names]

theorem seenFrom_joinAll (h : base ≠ []) (names : ∀ m ∈ l, IsEntryName m) :
    seenFrom base (joinAll base l) = [0x2F].intercalate l := by
  rw [seenFrom, stripWith?_joinAll h names, Option.getD_some]

end AssetAudit.Path

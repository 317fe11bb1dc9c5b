/-
AssetAudit/Proofs/Basename.lean

The file name of a path.

A path is a single segment, or it ends in a slash and a last segment
(`eq_or_exists_last_segment`), so an induction on paths takes one segment after
the other off the end (`segment_induction`).  What is read of the last segment is
what the path has more than the directory in front of it
(`components_append_slash`).

If the last segment is proper it is the file name (`fileName?_of_segment`,
`fileName?_append_slash`), and whatever is a file name is such a segment.  A text
without a slash is its own file name, also where it is none
(`basename_of_no_slash`).
-/
import AssetAudit.Path.Component
import AssetAudit.Proofs.Splitting

namespace AssetAudit.Path

variable {α : Type} [CodeUnit α] {p d c : List α} {slash : α}

/-! ### The last segment -/

/-- A slash ends a segment. -/
theorem segments_append_slash (h : CodeUnit.is slash '/' = true) :
    segments (d ++ slash :: c) = segments d ++ segments c :=
  List.splitOnP_append_cons d c h

theorem no_slash_of_mem_segments (h : c ∈ segments p) : ∀ u ∈ c, CodeUnit.is u '/' = false :=
  forall_of_mem_splitOnP h

theorem segments_append_segment (h : CodeUnit.is slash '/' = true)
    (free : ∀ u ∈ c, CodeUnit.is u '/' = false) :
    segments (d ++ slash :: c) = segments d ++ [c] := by
  rw [segments_append_slash h, segments_of_no_slash free]

/-- A path is one segment, or ends in a slash and one segment. -/
theorem eq_or_exists_last_segment (p : List α) :
    (∀ u ∈ p, CodeUnit.is u '/' = false) ∨
      ∃ d slash c, p = d ++ slash :: c ∧ CodeUnit.is slash '/' = true ∧
        ∀ u ∈ c, CodeUnit.is u '/' = false := by
  induction p with
  | nil => exact .inl (by simp)
  | cons u p ih =>
    rcases ih with free | ⟨d, slash, c, rfl, h, free⟩
    · by_cases hu : CodeUnit.is u '/' = true
      · exact .inr ⟨[], u, p, rfl, hu, free⟩
      · exact .inl (List.forall_mem_cons.mpr ⟨by simpa using hu, free⟩)
    · exact .inr ⟨u :: d, slash, c, rfl, h, free⟩

/-- Paths come about from a segment by a slash and a further segment at a
time. -/
@[elab_as_elim]
theorem segment_induction {motive : List α → Prop}
    (segment : ∀ c, (∀ u ∈ c, CodeUnit.is u '/' = false) → motive c)
    (behind : ∀ d slash c, CodeUnit.is slash '/' = true → (∀ u ∈ c, CodeUnit.is u '/' = false) →
      motive d → motive (d ++ slash :: c))
    (p : List α) : motive p := by
  generalize len : p.length = n
  induction n using Nat.strongRecOn generalizing p with
  | ind n ih =>
    rcases eq_or_exists_last_segment p with free | ⟨d, slash, c, rfl, is, free⟩
    · exact segment p free
    · have shorter : d.length < n := by
        rw [← len, List.length_append, List.length_cons]
        omega
      exact behind d slash c is free (ih _ shorter d rfl)

/-- Only the empty path has one segment, and that empty. -/
theorem eq_nil_of_segments (h : segments p = [[]]) : p = [] := by
  rcases eq_or_exists_last_segment p with free | ⟨d, slash, c, rfl, is, free⟩
  · rw [segments_of_no_slash free] at h
    exact List.singleton_inj.mp h
  · rw [segments_append_segment is free] at h
    exact absurd (List.append_eq_singleton_iff.mp h) (by simp [segments_ne_nil])

/-! ### Dots -/

section Dots

variable {d : α}

theorem isDot_iff (h : CodeUnit.is d '.' = true) : isDot c = true ↔ c = [d] := by
  match c with
  | [] => exact iff_of_false nofun nofun
  | [u] =>
    rw [isDot, List.singleton_inj]
    exact ⟨fun hu => CodeUnit.eq_of_is hu h, fun e => e ▸ h⟩
  | _ :: _ :: _ => exact iff_of_false nofun nofun

theorem isDotDot_iff (h : CodeUnit.is d '.' = true) : isDotDot c = true ↔ c = [d, d] := by
  match c with
  | [] => exact iff_of_false nofun nofun
  | [_] => exact iff_of_false nofun nofun
  | [u, v] =>
    rw [isDotDot, Bool.and_eq_true]
    constructor
    · rintro ⟨hu, hv⟩
      rw [CodeUnit.eq_of_is hu h, CodeUnit.eq_of_is hv h]
    · intro e
      obtain ⟨rfl, e⟩ := List.cons.inj e
      obtain rfl := List.singleton_inj.mp e
      exact ⟨h, h⟩
  | _ :: _ :: _ :: _ => exact iff_of_false nofun nofun

end Dots

/-! ### Readings and components -/

theorem readings_of_segments {s : List α} {rest : List (List α)} (h : segments p = s :: rest) :
    readings p = (s, firstReading s !rest.isEmpty) :: rest.map fun t => (t, innerReading t) := by
  rw [readings, h]

/-- A slash behind a segment only matters where the segment is empty. -/
theorem firstReading_eq {s : List α} (h : s ≠ []) (more : Bool) :
    firstReading s more = firstReading s true := by
  have written : s.isEmpty = false := List.isEmpty_eq_false_iff.mpr h
  rw [firstReading, firstReading, written]
  rfl

/-- What a segment denotes that is not the first, it denotes as the first as
well. -/
theorem firstReading_of_innerReading {x : Component α} (h : innerReading c = some x)
    (more : Bool) : firstReading c more = some x := by
  have said : ¬(c.isEmpty || isDot c) = true := by
    intro silent
    rw [innerReading, if_pos silent] at h
    cases h
  rw [Bool.or_eq_true, not_or] at said
  rw [firstReading, if_neg said.1, if_neg said.2, h]

theorem components_of_segments {s : List α} {rest : List (List α)} (h : segments p = s :: rest) :
    components p = (firstReading s !rest.isEmpty).toList ++ rest.filterMap innerReading := by
  rw [components, readings_of_segments h, List.filterMap_cons, List.filterMap_map]
  cases firstReading s !rest.isEmpty <;> rfl

theorem components_of_no_slash (free : ∀ u ∈ c, CodeUnit.is u '/' = false) :
    components c = (firstReading c false).toList := by
  rw [components_of_segments (segments_of_no_slash free), List.filterMap_nil, List.append_nil]
  rfl

/-- The last segment of several is read by itself. -/
theorem components_of_segments_concat {first : List α} {others : List (List α)}
    (h : segments p = first :: (others ++ [c])) :
    components p =
      (firstReading first true).toList ++ others.filterMap innerReading ++
        (innerReading c).toList := by
  have more : (others ++ [c]).isEmpty = false :=
    List.isEmpty_eq_false_iff.mpr (List.append_ne_nil_of_right_ne_nil others nofun)
  have last : [c].filterMap innerReading = (innerReading c).toList := by
    rw [List.filterMap_cons]
    cases innerReading c <;> rfl
  rw [components_of_segments h, more, List.filterMap_append, last, List.append_assoc]
  rfl

/-- What is read of the last segment comes behind what is read of the directory
in front of it. -/
theorem components_append_slash (h : CodeUnit.is slash '/' = true)
    (free : ∀ u ∈ c, CodeUnit.is u '/' = false) :
    components (d ++ slash :: c) = components (d ++ [slash]) ++ (innerReading c).toList := by
  obtain ⟨first, others, e⟩ := List.exists_cons_of_ne_nil (segments_ne_nil d)
  have cut : segments (d ++ slash :: c) = first :: (others ++ [c]) := by
    rw [segments_append_segment h free, e, List.cons_append]
  have front : segments (d ++ [slash]) = first :: (others ++ [[]]) := by
    rw [segments_append_segment h (List.forall_mem_nil _), e, List.cons_append]
  have nothing : (innerReading ([] : List α)).toList = [] := rfl
  rw [components_of_segments_concat cut, components_of_segments_concat front, nothing,
    List.append_nil]

/-- A slash at the end says nothing, unless it is all there is. -/
theorem components_concat_slash (h : CodeUnit.is slash '/' = true) (written : d ≠ []) :
    components (d ++ [slash]) = components d := by
  obtain ⟨first, others, e⟩ := List.exists_cons_of_ne_nil (segments_ne_nil d)
  have cut : segments (d ++ [slash]) = first :: (others ++ [[]]) := by
    rw [segments_append_segment h (List.forall_mem_nil _), e, List.cons_append]
  have nothing : (innerReading ([] : List α)).toList = [] := rfl
  have same : firstReading first (!others.isEmpty) = firstReading first true := by
    cases others with
    | nil =>
      apply firstReading_eq
      rintro rfl
      exact written (eq_nil_of_segments e)
    | cons t rest => rfl
  rw [components_of_segments_concat cut, components_of_segments e, same, nothing, List.append_nil]

/-- A slash alone is the root. -/
theorem components_slash (h : CodeUnit.is slash '/' = true) : components [slash] = [.root] := by
  have cut : segments [slash] = [] :: ([] ++ [[]]) :=
    segments_append_segment (d := []) h (List.forall_mem_nil _)
  rw [components_of_segments_concat cut]
  rfl

theorem innerReading_of_proper (h : isProper c = true) : innerReading c = some (.name c) := by
  simp only [isProper, Bool.and_eq_true, Bool.not_eq_true'] at h
  simp [innerReading, h]

/-! ### File names -/

/-- A path has a file name where its last component is that name. -/
theorem fileName?_eq_some_iff :
    fileName? p = some c ↔ (components p).getLast? = some (.name c) := by
  rw [fileName?, Option.bind_eq_some_iff]
  constructor
  · rintro ⟨last, found, name⟩
    cases last with
    | name s =>
      cases name
      exact found
    | root => cases name
    | here => cases name
    | parent => cases name
  · intro found
    exact ⟨_, found, rfl⟩

/-- A proper segment behind the last slash is the file name. -/
theorem fileName?_append_slash (h : CodeUnit.is slash '/' = true)
    (free : ∀ u ∈ c, CodeUnit.is u '/' = false) (proper : isProper c = true) :
    fileName? (d ++ slash :: c) = some c := by
  rw [fileName?_eq_some_iff, components_append_slash h free, innerReading_of_proper proper,
    Option.toList_some, List.getLast?_concat]

/-- A proper segment alone is the file name. -/
theorem fileName?_of_segment (free : ∀ u ∈ c, CodeUnit.is u '/' = false)
    (proper : isProper c = true) : fileName? c = some c := by
  rw [fileName?_eq_some_iff, components_of_no_slash free,
    firstReading_of_innerReading (innerReading_of_proper proper)]
  rfl

theorem basename_append_slash (h : CodeUnit.is slash '/' = true)
    (free : ∀ u ∈ c, CodeUnit.is u '/' = false) (proper : isProper c = true) :
    basename (d ++ slash :: c) = c := by
  rw [basename, fileName?_append_slash h free proper, Option.getD_some]

/-- A reading that is a name is that of its segment. -/
theorem eq_of_innerReading (h : innerReading p = some (.name c)) : p = c := by
  rw [innerReading] at h
  split at h
  · cases h
  split at h
  · cases h
  · cases h
    rfl

theorem eq_of_firstReading {more : Bool} (h : firstReading p more = some (.name c)) : p = c := by
  rw [firstReading] at h
  split at h
  · split at h <;> cases h
  split at h
  · cases h
  · exact eq_of_innerReading h

/-- A file name is a segment. -/
theorem mem_segments_of_fileName? (h : fileName? p = some c) : c ∈ segments p := by
  have mem : .name c ∈ components p := List.mem_of_getLast? (fileName?_eq_some_iff.mp h)
  obtain ⟨first, others, e⟩ := List.exists_cons_of_ne_nil (segments_ne_nil p)
  simp only [components, readings_of_segments e, List.mem_filterMap, List.mem_cons,
    List.mem_map] at mem
  obtain ⟨_, rfl | ⟨t, ht, rfl⟩, read⟩ := mem
  · rw [e, eq_of_firstReading read]
    exact List.mem_cons_self ..
  · rw [e, ← eq_of_innerReading read]
    exact List.mem_cons_of_mem _ ht

/-- A file name has no slash. -/
theorem no_slash_of_fileName? (h : fileName? p = some c) : ∀ u ∈ c, CodeUnit.is u '/' = false :=
  no_slash_of_mem_segments (mem_segments_of_fileName? h)

/-- A text without a slash is its own file name, proper or not. -/
theorem basename_of_no_slash (free : ∀ u ∈ p, CodeUnit.is u '/' = false) : basename p = p := by
  rw [basename]
  cases h : fileName? p with
  | none => rfl
  | some c =>
    have mem := mem_segments_of_fileName? h
    rw [segments_of_no_slash free, List.mem_singleton] at mem
    rw [mem, Option.getD_some]

/-- Taking the file name again changes nothing. -/
theorem basename_basename (p : List α) : basename (basename p) = basename p := by
  cases h : fileName? p with
  | none =>
    have own : basename p = p := by rw [basename, h, Option.getD_none]
    rw [own, own]
  | some c =>
    have named : basename p = c := by rw [basename, h, Option.getD_some]
    rw [named]
    exact basename_of_no_slash (no_slash_of_fileName? h)

end AssetAudit.Path

/-
AssetAudit/Proofs/LastComponent.lean

What a path ends in.

Behind the last segment that says something only slashes and segments `.` can
stand.  They are told as a text, the `IsTail` of a path, and so is what stands
before that segment (`IsFront`).  `EndsIn x p` says that the path `p` ends in the
component `x` in these words alone, without taking it apart.

A path that is not empty ends in one component, and that is the last one it falls
into (`getLast?_components_iff`).  One half is by the shape of the path: a tail
adds nothing to the components of what is in front of it
(`components_append_tail`).  The other half is an induction on the segments, which
shows that there is no other shape (`eq_nil_or_exists_endsIn`).

Main result: `basename_is_last_segment`.
-/
import AssetAudit.Proofs.Basename

namespace AssetAudit.Path

/-! ### The shape of a path -/

/-- A segment that names an entry. -/
structure IsSegment (c : Text) : Prop where
  written : c ≠ []
  slash_not_mem : '/' ∉ c
  ne_dot : c ≠ ".".toList
  ne_dotDot : c ≠ "..".toList

/-- A segment can begin behind `d`. -/
def IsFront (d : Text) : Prop :=
  d = [] ∨ ∃ above, d = above ++ ['/']

/-- Any number of slashes, with or without a dot behind. -/
def IsTail (t : Text) : Prop :=
  ∃ pieces : List Text, (∀ piece ∈ pieces, piece = "/".toList ∨ piece = "/.".toList) ∧
    t = pieces.flatten

/-- The path ends in the component, but for a tail. -/
inductive EndsIn : Component Char → Text → Prop
  | root {t} : t ≠ [] → IsTail t → EndsIn .root t
  /-- A dot only counts where the path begins. -/
  | here {t} : IsTail t → EndsIn .here (".".toList ++ t)
  | parent {d t} : IsFront d → IsTail t → EndsIn .parent (d ++ "..".toList ++ t)
  | name {d c t} : IsFront d → IsSegment c → IsTail t → EndsIn (.name c) (d ++ c ++ t)

variable {c d p t : Text} {x y : Component Char}

/-! ### Segments -/

theorem no_slash_iff : (∀ u ∈ c, CodeUnit.is u '/' = false) ↔ '/' ∉ c := by
  simp only [CodeUnit.is_char, beq_eq_false_iff_ne]
  exact ⟨fun free mem => free _ mem rfl, fun none u hu e => none (e ▸ hu)⟩

/-- A segment is empty, one or two dots, or it names an entry. -/
theorem segment_cases (free : ∀ u ∈ c, CodeUnit.is u '/' = false) :
    c = [] ∨ c = ".".toList ∨ c = "..".toList ∨ IsSegment c := by
  by_cases written : c = []
  · exact .inl written
  by_cases dot : c = ".".toList
  · exact .inr (.inl dot)
  by_cases dots : c = "..".toList
  · exact .inr (.inr (.inl dots))
  exact .inr (.inr (.inr ⟨written, no_slash_iff.mp free, dot, dots⟩))

namespace IsSegment

theorem no_slash (h : IsSegment c) : ∀ u ∈ c, CodeUnit.is u '/' = false :=
  no_slash_iff.mpr h.slash_not_mem

theorem innerReading_eq (h : IsSegment c) : innerReading c = some (.name c) := by
  apply innerReading_of_proper
  have dot : isDot c = false := by
    rw [← Bool.not_eq_true, isDot_iff (d := '.') rfl]
    exact h.ne_dot
  have dots : isDotDot c = false := by
    rw [← Bool.not_eq_true, isDotDot_iff (d := '.') rfl]
    exact h.ne_dotDot
  rw [isProper, List.isEmpty_eq_false_iff.mpr h.written, dot, dots]
  rfl

end IsSegment

/-! ### Tails -/

namespace IsTail

theorem nil : IsTail [] :=
  ⟨[], nofun, rfl⟩

theorem slash : IsTail "/".toList :=
  ⟨["/".toList], by simp, rfl⟩

theorem slash_dot : IsTail "/.".toList :=
  ⟨["/.".toList], by simp, rfl⟩

theorem append {t' : Text} (h : IsTail t) (h' : IsTail t') : IsTail (t ++ t') := by
  obtain ⟨pieces, each, rfl⟩ := h
  obtain ⟨pieces', each', rfl⟩ := h'
  exact ⟨pieces ++ pieces', List.forall_mem_append.mpr ⟨each, each'⟩, List.flatten_append.symm⟩

end IsTail

/-- A dot behind the last slash says nothing. -/
theorem components_append_slash_dot (d : Text) :
    components (d ++ "/.".toList) = components (d ++ "/".toList) := by
  have dot : ∀ u ∈ ".".toList, CodeUnit.is u '/' = false := no_slash_iff.mpr (by decide)
  exact (components_append_slash rfl dot).trans (List.append_nil _)

theorem components_append_tail (written : p ≠ []) (tail : IsTail t) :
    components (p ++ t) = components p := by
  obtain ⟨pieces, each, rfl⟩ := tail
  induction pieces generalizing p with
  | nil => rw [List.flatten_nil, List.append_nil]
  | cons piece pieces ih =>
    obtain ⟨first, others⟩ := List.forall_mem_cons.mp each
    have longer : p ++ piece ≠ [] := List.append_ne_nil_of_left_ne_nil written piece
    have same : components (p ++ piece) = components p := by
      rcases first with rfl | rfl
      · exact components_concat_slash rfl written
      · rw [components_append_slash_dot]
        exact components_concat_slash rfl written
    rw [List.flatten_cons, ← List.append_assoc, ih longer others, same]

/-- Where a path is all tail, it is the root. -/
theorem components_of_tail (written : t ≠ []) (tail : IsTail t) : components t = [.root] := by
  obtain ⟨pieces, each, rfl⟩ := tail
  cases pieces with
  | nil => exact absurd rfl written
  | cons piece pieces =>
    obtain ⟨first, others⟩ := List.forall_mem_cons.mp each
    have more : IsTail pieces.flatten := ⟨pieces, others, rfl⟩
    rw [List.flatten_cons]
    rcases first with rfl | rfl
    · rw [components_append_tail (by decide) more]
      exact components_slash rfl
    · rw [components_append_tail (by decide) more]
      exact (components_append_slash_dot []).trans (components_slash rfl)

/-! ### The last component -/

theorem getLast?_components_of_front (front : IsFront d)
    (free : ∀ u ∈ c, CodeUnit.is u '/' = false) (h : innerReading c = some x) :
    (components (d ++ c)).getLast? = some x := by
  rcases front with rfl | ⟨above, rfl⟩
  · rw [List.nil_append, components_of_no_slash free, firstReading_of_innerReading h]
    rfl
  · rw [List.append_assoc, List.singleton_append, components_append_slash rfl free, h,
      Option.toList_some, List.getLast?_concat]

namespace EndsIn

/-- A path falls into components as it is written to end in one. -/
theorem getLast?_components (h : EndsIn x p) : (components p).getLast? = some x := by
  cases h with
  | root written tail =>
    rw [components_of_tail written tail]
    rfl
  | here tail =>
    rw [components_append_tail (by decide) tail]
    rfl
  | parent front tail =>
    rw [components_append_tail (List.append_ne_nil_of_right_ne_nil _ (by decide)) tail]
    exact getLast?_components_of_front front (no_slash_iff.mpr (by decide)) rfl
  | name front segment tail =>
    rw [components_append_tail (List.append_ne_nil_of_right_ne_nil _ segment.written) tail]
    exact getLast?_components_of_front front segment.no_slash segment.innerReading_eq

/-- A longer tail makes no difference. -/
theorem append_tail (h : EndsIn x p) (more : IsTail t) : EndsIn x (p ++ t) := by
  cases h with
  | root written tail =>
    exact .root (List.append_ne_nil_of_left_ne_nil written t) (tail.append more)
  | here tail =>
    rw [List.append_assoc]
    exact .here (tail.append more)
  | parent front tail =>
    rw [List.append_assoc]
    exact .parent front (tail.append more)
  | name front segment tail =>
    rw [List.append_assoc]
    exact .name front segment (tail.append more)

theorem of_parent (front : IsFront d) : EndsIn .parent (d ++ "..".toList) :=
  List.append_nil (d ++ "..".toList) ▸ .parent front .nil

theorem of_segment (front : IsFront d) (segment : IsSegment c) : EndsIn (.name c) (d ++ c) :=
  List.append_nil (d ++ c) ▸ .name front segment .nil

end EndsIn

/-- **Every path but the empty one ends in a component.** -/
theorem eq_nil_or_exists_endsIn (p : Text) : p = [] ∨ ∃ x, EndsIn x p := by
  induction p using segment_induction with
  | segment c free =>
    rcases segment_cases free with rfl | rfl | rfl | segment
    · exact .inl rfl
    · exact .inr ⟨.here, .here .nil⟩
    · exact .inr ⟨.parent, .of_parent (.inl rfl)⟩
    · exact .inr ⟨.name c, .of_segment (.inl rfl) segment⟩
  | behind d slash c is free ih =>
    obtain rfl : slash = '/' := CodeUnit.eq_of_is is rfl
    right
    -- a segment that says nothing makes the tail longer
    have longer {t : Text} (written : t ≠ []) (tail : IsTail t) : ∃ x, EndsIn x (d ++ t) := by
      rcases ih with rfl | ⟨x, ends⟩
      · exact ⟨.root, .root written tail⟩
      · exact ⟨x, ends.append_tail tail⟩
    have front : IsFront (d ++ ['/']) := .inr ⟨d, rfl⟩
    have behind : d ++ '/' :: c = d ++ ['/'] ++ c := List.append_cons d '/' c
    rcases segment_cases free with rfl | rfl | rfl | segment
    · exact longer (by decide) .slash
    · exact longer (by decide) .slash_dot
    · exact ⟨.parent, behind ▸ .of_parent front⟩
    · exact ⟨.name c, behind ▸ .of_segment front segment⟩

/-- **The last component of a path** is the one that it is written to end in. -/
theorem getLast?_components_iff : (components p).getLast? = some x ↔ EndsIn x p := by
  refine ⟨?_, EndsIn.getLast?_components⟩
  intro last
  rcases eq_nil_or_exists_endsIn p with rfl | ⟨y, ends⟩
  · cases last
  · rw [ends.getLast?_components] at last
    exact Option.some.inj last ▸ ends

theorem fileName?_eq_some_iff_endsIn : fileName? p = some c ↔ EndsIn (.name c) p :=
  fileName?_eq_some_iff.trans getLast?_components_iff

/-! ### File names -/

theorem basename_of_endsIn (h : EndsIn (.name c) p) : basename p = c := by
  rw [basename, fileName?_eq_some_iff_endsIn.mpr h, Option.getD_some]

theorem basename_of_not_endsIn (h : ∀ c, ¬EndsIn (.name c) p) : basename p = p := by
  have none : fileName? p = none := by
    rw [Option.eq_none_iff_forall_ne_some]
    intro c found
    exact h c (fileName?_eq_some_iff_endsIn.mp found)
  rw [basename, none, Option.getD_none]

/-- **The basename of a path is the last segment that names an entry**, whatever
is in front of it and whatever slashes and dots are behind.  A path that does not
end in such a segment is empty, or ends in the root, in `.` or in `..`, and is its
own basename.  The basename of a basename is the same. -/
theorem basename_is_last_segment :
    (∀ d c t : Text, IsSegment c → IsTail t →
      basename (d ++ '/' :: (c ++ t)) = c ∧ basename (c ++ t) = c) ∧
    ∀ raw : Text,
      (EndsIn (.name (basename raw)) raw ∨
        ((raw = [] ∨ EndsIn .root raw ∨ EndsIn .here raw ∨ EndsIn .parent raw) ∧
          (∀ c, ¬EndsIn (.name c) raw) ∧ basename raw = raw)) ∧
      basename (basename raw) = basename raw := by
  refine ⟨?_, fun raw => ⟨?_, basename_basename raw⟩⟩
  · intro d c t segment tail
    have whole : d ++ '/' :: (c ++ t) = d ++ ['/'] ++ c ++ t := by
      rw [List.append_cons, List.append_assoc _ c]
    constructor
    · rw [whole]
      exact basename_of_endsIn (.name (.inr ⟨d, rfl⟩) segment tail)
    · exact basename_of_endsIn (.name (.inl rfl) segment tail)
  · by_cases named : ∃ c, EndsIn (.name c) raw
    · obtain ⟨c, ends⟩ := named
      left
      rwa [basename_of_endsIn ends]
    · rw [not_exists] at named
      refine .inr ⟨?_, named, basename_of_not_endsIn named⟩
      rcases eq_nil_or_exists_endsIn raw with empty | ⟨x, ends⟩
      · exact .inl empty
      · cases x with
        | root => exact .inr (.inl ends)
        | here => exact .inr (.inr (.inl ends))
        | parent => exact .inr (.inr (.inr ends))
        | name c => exact absurd ends (named c)

/-- An image behind `..`, with slashes and dots behind its name. -/
theorem basename_of_trailing_dots :
    let c := "icon@2x.png".toList
    let t := "//./.".toList
    IsSegment c ∧ IsTail t ∧ basename ("Images/..".toList ++ '/' :: (c ++ t)) = c ∧
      basename (c ++ t) = c := by
  intro c t
  have segment : IsSegment c := ⟨by decide, by decide, by decide, by decide⟩
  have tail : IsTail t := ⟨["/".toList, "/.".toList, "/.".toList], by simp, rfl⟩
  exact ⟨segment, tail, basename_is_last_segment.1 _ c t segment tail⟩

end AssetAudit.Path

/-
AssetAudit/Proofs/Shown.lean

Paths as they are shown.

What a path looks like is told by how its segments look, since a slash is shown
for a slash and for nothing else (`segments_decodeLossy`).  A segment is shown as
empty, `.` or `..` only if it is that.  So a path keeps its components, and the
name that it ends in, when it is shown (`fileName?_decodeLossy`); what can change
are the names themselves, where they are not UTF-8.
-/
import AssetAudit.Proofs.Basename
import AssetAudit.Proofs.Decoding
import AssetAudit.Proofs.Tree

namespace AssetAudit

namespace Path

variable {s p : Bytes}

/-! ### Dots -/

theorem isEmpty_decodeLossy (s : Bytes) : (Utf8.decodeLossy s).isEmpty = s.isEmpty := by
  rw [Bool.eq_iff_iff, List.isEmpty_iff, List.isEmpty_iff, Utf8.decodeLossy_eq_iff (by simp)]
  rfl

theorem isDot_decodeLossy (s : Bytes) : isDot (Utf8.decodeLossy s) = isDot s := by
  rw [Bool.eq_iff_iff, isDot_iff (d := '.') rfl, isDot_iff (d := 0x2E) rfl,
    Utf8.decodeLossy_eq_iff (by simp)]
  rfl

theorem isDotDot_decodeLossy (s : Bytes) : isDotDot (Utf8.decodeLossy s) = isDotDot s := by
  rw [Bool.eq_iff_iff, isDotDot_iff (d := '.') rfl, isDotDot_iff (d := 0x2E) rfl,
    Utf8.decodeLossy_eq_iff (by simp)]
  rfl

/-! ### Segments -/

/-- No slash is shown where there is none. -/
theorem no_slash_decodeLossy (free : ∀ u ∈ s, CodeUnit.is u '/' = false) :
    ∀ u ∈ Utf8.decodeLossy s, CodeUnit.is u '/' = false := by
  intro u hu
  rw [← Bool.not_eq_true]
  intro slash
  have code : u.toNat = '/'.toNat := CodeUnit.is_eq_true_iff.mp slash
  obtain ⟨b, hb, same⟩ := Utf8.exists_byte_of_mem hu (by rw [code]; decide)
  have none := free b hb
  rw [CodeUnit.is_eq_true_iff.mpr (same.trans code)] at none
  cases none

/-- **The segments of a path as it is shown** are its segments as they are
shown. -/
theorem segments_decodeLossy (p : Bytes) :
    segments (Utf8.decodeLossy p) = (segments p).map Utf8.decodeLossy := by
  induction p using segment_induction with
  | segment c free =>
    rw [segments_of_no_slash free, segments_of_no_slash (no_slash_decodeLossy free)]
    rfl
  | behind d slash c is free ih =>
    obtain rfl : slash = 0x2F := CodeUnit.eq_of_is is rfl
    rw [Utf8.decodeLossy_append_ascii (by decide),
      segments_append_segment rfl (no_slash_decodeLossy free), segments_append_segment rfl free, ih,
      List.map_append]
    rfl

/-! ### Components -/

/-- A component as it is shown. -/
def Component.shown : Component UInt8 → Component Char
  | .root => .root
  | .here => .here
  | .parent => .parent
  | .name s => .name (Utf8.decodeLossy s)

theorem Component.name?_shown (c : Component UInt8) :
    c.shown.name? = c.name?.map Utf8.decodeLossy := by
  cases c <;> rfl

theorem innerReading_decodeLossy (s : Bytes) :
    innerReading (Utf8.decodeLossy s) = (innerReading s).map Component.shown := by
  rw [innerReading, innerReading, isEmpty_decodeLossy, isDot_decodeLossy, isDotDot_decodeLossy]
  split
  · rfl
  split <;> rfl

theorem firstReading_decodeLossy (s : Bytes) (more : Bool) :
    firstReading (Utf8.decodeLossy s) more = (firstReading s more).map Component.shown := by
  rw [firstReading, firstReading, isEmpty_decodeLossy, isDot_decodeLossy, innerReading_decodeLossy]
  split
  · split <;> rfl
  split <;> rfl

theorem components_decodeLossy (p : Bytes) :
    components (Utf8.decodeLossy p) = (components p).map Component.shown := by
  obtain ⟨first, others, e⟩ := List.exists_cons_of_ne_nil (segments_ne_nil p)
  have shown : segments (Utf8.decodeLossy p) =
      Utf8.decodeLossy first :: others.map Utf8.decodeLossy := by
    rw [segments_decodeLossy, e, List.map_cons]
  have inner : (fun t : Bytes => innerReading (Utf8.decodeLossy t)) =
      fun t => (innerReading t).map Component.shown := funext innerReading_decodeLossy
  rw [components, components, readings_of_segments shown, readings_of_segments e,
    List.map_filterMap]
  simp only [List.filterMap_cons, List.isEmpty_map, firstReading_decodeLossy, List.map_map,
    List.filterMap_map, Function.comp_def, inner]

/-- **The file name of a path as it is shown** is its file name as it is
shown. -/
theorem fileName?_decodeLossy (p : Bytes) :
    fileName? (Utf8.decodeLossy p) = (fileName? p).map Utf8.decodeLossy := by
  rw [fileName?, fileName?, components_decodeLossy, List.getLast?_map]
  cases (components p).getLast? with
  | none => rfl
  | some c => exact c.name?_shown

theorem basename_decodeLossy {n : Bytes} (h : fileName? p = some n) :
    basename (Utf8.decodeLossy p) = Utf8.decodeLossy n := by
  rw [basename, fileName?_decodeLossy, h]
  rfl

end Path

/-- A name of an entry is one as it is shown. -/
theorem IsEntryName.shown {n : Bytes} (h : IsEntryName n) :
    Path.isProper (Utf8.decodeLossy n) = true ∧
      ∀ u ∈ Utf8.decodeLossy n, CodeUnit.is u '/' = false := by
  refine ⟨?_, Path.no_slash_decodeLossy h.2⟩
  rw [Path.isProper, Path.isEmpty_decodeLossy, Path.isDot_decodeLossy, Path.isDotDot_decodeLossy]
  exact h.1

end AssetAudit

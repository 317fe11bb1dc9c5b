/-
AssetAudit/Proofs/Staging.lean

The bundle name, taken off from the right in stages.

An ending is looked for from the left, and the first that is found is the
longest (`length_le_of_splitEnding`).  The same name comes out if its parts are
taken off one after the other from the right: the extension, without which
nothing is taken off, then a qualifier, then a marker (`stagedName`).

Main result: `bundleName_in_stages`.
-/
import AssetAudit.Proofs.Canonical
import Mathlib.Data.List.DropRight

namespace AssetAudit

/-! ### The stages -/

/-- The spellings of the resolution marker. -/
def markerSpellings : List Text :=
  ["@2x".toList, "@2X".toList]

/-- The name ends in a resolution marker. -/
def EndsInMarker (t : Text) : Prop :=
  ∃ marker ∈ markerSpellings, marker <:+ t

/-- The name ends in a device qualifier. -/
def EndsInQualifier (t : Text) : Prop :=
  ∃ front letters, Ending.IsQualifier letters ∧ t = front ++ '~' :: letters

instance (t : Text) : Decidable (EndsInMarker t) :=
  inferInstanceAs (Decidable (∃ marker ∈ markerSpellings, marker <:+ t))

/-- The name without the marker it ends in. -/
def withoutMarker (t : Text) : Text :=
  if EndsInMarker t then t.rdrop 3 else t

/-- The name without the qualifier it ends in: the letters at its end, if there
are some, with the tilde in front of them. -/
def withoutQualifier (t : Text) : Text :=
  let front := t.rdropWhile Ending.isQualifierLetter
  if front.length < t.length ∧ front.getLast? = some '~' then front.dropLast else t

/-- The name without its extension, its qualifier and its marker, each taken off
what the stage before has left.  Only names with the extension are changed. -/
def stagedName (base : Text) : Text :=
  if hasExtension base then withoutMarker (withoutQualifier (base.rdrop 4)) else base

section Stages

variable {t marker letters ext : Text}

theorem length_of_mem_markerSpellings (h : marker ∈ markerSpellings) : marker.length = 3 := by
  have all : ∀ marker ∈ markerSpellings, marker.length = 3 := by decide
  exact all marker h

theorem slash_not_mem_of_form (h : marker = [] ∨ marker ∈ markerSpellings) : '/' ∉ marker := by
  have all : ∀ marker ∈ [] :: markerSpellings, '/' ∉ marker := by decide
  exact all marker (List.mem_cons.mpr h)

theorem withoutMarker_append (h : marker ∈ markerSpellings) (front : Text) :
    withoutMarker (front ++ marker) = front := by
  rw [withoutMarker, if_pos ⟨marker, h, List.suffix_append ..⟩, List.rdrop, List.length_append,
    length_of_mem_markerSpellings h, Nat.add_sub_cancel, List.take_left]

theorem withoutMarker_of_not (h : ¬EndsInMarker t) : withoutMarker t = t :=
  if_neg h

theorem rdropWhile_qualifier (h : Ending.IsQualifier letters) (front : Text) :
    (front ++ '~' :: letters).rdropWhile Ending.isQualifierLetter = front ++ ['~'] := by
  have all : ∀ c ∈ letters.reverse, Ending.isQualifierLetter c = true := by
    intro c hc
    exact h.2 c (List.mem_reverse.mp hc)
  rw [List.rdropWhile, List.reverse_append, List.reverse_cons, List.append_assoc,
    List.dropWhile_append_of_pos all, List.singleton_append, List.dropWhile_cons_of_neg (by decide),
    List.reverse_cons, List.reverse_reverse]

theorem withoutQualifier_append (h : Ending.IsQualifier letters) (front : Text) :
    withoutQualifier (front ++ '~' :: letters) = front := by
  have some := List.length_pos_iff.mpr h.1
  simp only [withoutQualifier, rdropWhile_qualifier h]
  rw [if_pos ⟨by simpa using some, List.getLast?_concat⟩, List.dropLast_concat]

theorem withoutQualifier_of_not (h : ¬EndsInQualifier t) : withoutQualifier t = t := by
  apply if_neg
  rintro ⟨shorter, last⟩
  apply h
  have whole := List.rdropWhile_append_rtakeWhile (l := t) (p := Ending.isQualifierLetter)
  obtain ⟨front, e⟩ := List.getLast?_eq_some_iff.mp last
  refine ⟨front, t.rtakeWhile Ending.isQualifierLetter, ⟨?_, ?_⟩, ?_⟩
  · intro none
    rw [none, List.append_nil] at whole
    rw [whole] at shorter
    exact Nat.lt_irrefl _ shorter
  · intro c hc
    exact List.mem_rtakeWhile_imp hc
  · rw [← List.singleton_append, ← List.append_assoc, ← e, whole]

theorem endsInQualifier_iff : EndsInQualifier t ↔ withoutQualifier t ≠ t := by
  constructor
  · rintro ⟨front, letters, qualifier, rfl⟩ same
    rw [withoutQualifier_append qualifier] at same
    exact absurd same (by simp)
  · exact fun changed => not_not.mp (mt withoutQualifier_of_not changed)

instance (t : Text) : Decidable (EndsInQualifier t) :=
  decidable_of_iff _ endsInQualifier_iff.symm

/-- Letters behind a marker do not make a qualifier. -/
theorem not_endsInQualifier_append (h : marker ∈ markerSpellings) (front : Text) :
    ¬EndsInQualifier (front ++ marker) := by
  rintro ⟨front', letters, qualifier, e⟩
  have same := rdropWhile_qualifier qualifier front'
  rw [← e] at same
  -- seen from the end there is one letter, and the digit in front of it is no tilde
  have digit : (front ++ marker).rdropWhile Ending.isQualifierLetter = front ++ ['@', '2'] := by
    rcases List.mem_pair.mp h with rfl | rfl
    · simp [List.rdropWhile, show Ending.isQualifierLetter 'x' = true by decide,
        show Ending.isQualifierLetter '2' = false by decide]
    · simp [List.rdropWhile, show Ending.isQualifierLetter 'X' = true by decide,
        show Ending.isQualifierLetter '2' = false by decide]
  have last := congrArg List.getLast? (digit.symm.trans same)
  simp at last

theorem stagedName_append (h : Ending.isExtension ext = true) (front : Text) :
    stagedName (front ++ ext) = withoutMarker (withoutQualifier front) := by
  have has : hasExtension (front ++ ext) = true :=
    endsFolded_append front (endsFolded_of_map_eq (Ending.isExtension_iff.mp h))
  rw [stagedName, if_pos has, List.rdrop, List.length_append, Ending.length_of_isExtension h,
    Nat.add_sub_cancel, List.take_left]

/-- The stages leave a front that ends in nothing more to take off. -/
theorem stagedName_of_plain {front : Text} {q : Option Text}
    (form : marker = [] ∨ marker ∈ markerSpellings)
    (qualifier : ∀ letters, q = some letters → Ending.IsQualifier letters)
    (isExt : Ending.isExtension ext = true) (noMarker : marker = [] → ¬EndsInMarker front)
    (noQualifier : marker = [] → q = none → ¬EndsInQualifier front) :
    stagedName (front ++ (marker ++ (Ending.writtenQualifier q ++ ext))) = front := by
  have second : withoutQualifier (front ++ marker ++ Ending.writtenQualifier q) =
      front ++ marker := by
    cases q with
    | some letters => exact withoutQualifier_append (qualifier letters rfl) (front ++ marker)
    | none =>
      rw [Ending.writtenQualifier, List.append_nil]
      apply withoutQualifier_of_not
      rcases form with rfl | mem
      · rw [List.append_nil]
        exact noQualifier rfl rfl
      · exact not_endsInQualifier_append mem front
  rw [← List.append_assoc, ← List.append_assoc, stagedName_append isExt, second]
  rcases form with rfl | mem
  · rw [List.append_nil]
    exact withoutMarker_of_not (noMarker rfl)
  · exact withoutMarker_append mem front

end Stages

/-! ### The longest ending -/

/-- No ending of a name begins in front of the one that is removed. -/
theorem length_le_of_splitEnding {front back : Text} {e : Ending}
    (h : Ending.ofText? back = some e) :
    (splitEnding (front ++ back)).1.length ≤ front.length := by
  induction front with
  | nil =>
    cases back with
    | nil => exact Nat.le_refl 0
    | cons c cs => simp [splitEnding, h]
  | cons c front ih =>
    rw [List.cons_append, splitEnding]
    split
    · exact Nat.zero_le _
    · exact Nat.succ_le_succ ih

/-- The stages leave what stands in front of the longest ending. -/
theorem splitEnding_eq_stagedName (base : Text) : (splitEnding base).1 = stagedName base := by
  cases found : (splitEnding base).2 with
  | none =>
    have without := splitEnding_eq_none_iff.mp found
    rw [stagedName, without, if_neg Bool.false_ne_true]
    exact splitEnding_eq_self_iff.mpr without
  | some e =>
    obtain ⟨removed, cut, ending⟩ := removed_of_splitEnding found
    obtain ⟨marker, mem, ext, isExt, rfl, qualifier⟩ := Ending.ofText?_eq_some_iff.mp ending
    have longest : ∀ front back e, base = front ++ back → Ending.ofText? back = some e →
        (splitEnding base).1.length ≤ front.length := by
      rintro front back e rfl other
      exact length_le_of_splitEnding other
    obtain ⟨resolution, q⟩ := e
    generalize (splitEnding base).1 = front at cut longest
    have form : marker = [] ∨ marker ∈ markerSpellings := by
      cases resolution with
      | false => exact .inl (Ending.eq_nil_of_mem_markers rfl mem)
      | true => exact .inr mem
    rw [cut]
    refine (stagedName_of_plain form qualifier isExt ?_ ?_).symm
    · -- with a marker in front of it the ending would be longer
      rintro rfl ⟨more, spelled, shorter, rfl⟩
      have other : Ending.ofText? (more ++ (Ending.writtenQualifier q ++ ext)) = some ⟨true, q⟩ :=
        Ending.ofText?_eq_some_iff.mpr ⟨more, spelled, ext, isExt, rfl, qualifier⟩
      have le := longest shorter _ _ (by rw [cut]; simp) other
      rw [List.length_append, length_of_mem_markerSpellings spelled] at le
      omega
    · -- and so it would with a qualifier
      rintro rfl rfl ⟨shorter, letters, more, rfl⟩
      have other : Ending.ofText? ('~' :: letters ++ ext) = some ⟨false, some letters⟩ :=
        Ending.ofText?_eq_some_iff.mpr ⟨[], by simp [Ending.markers], ext, isExt, rfl, by
          rintro _ ⟨⟩
          exact more⟩
      have le := longest shorter _ _ (by rw [cut]; simp [Ending.writtenQualifier]) other
      rw [List.length_append, List.length_cons] at le
      omega

/-! ### The bundle name -/

/-- **A bundle name is the file name with its extension, its qualifier and its
marker taken off, in this order.**  So a name that ends in neither a marker nor a
qualifier comes out of each file name that is made of it with a marker, if any, a
qualifier, if any, and the extension, in whatever directory the file is. -/
theorem bundleName_in_stages :
    (∀ raw, bundleName raw = stagedName (Path.basename raw)) ∧
    ∀ (c marker ext : Text) (q : Option Text), '/' ∉ c → ¬EndsInMarker c → ¬EndsInQualifier c →
      (marker = [] ∨ marker ∈ markerSpellings) →
      (∀ letters, q = some letters → Ending.IsQualifier letters) → Ending.isExtension ext = true →
      let file := c ++ (marker ++ (Ending.writtenQualifier q ++ ext))
      bundleName file = c ∧ ∀ d, bundleName (d ++ '/' :: file) = c := by
  have stages (raw : Text) : bundleName raw = stagedName (Path.basename raw) :=
    splitEnding_eq_stagedName _
  refine ⟨stages, ?_⟩
  intro c marker ext q segment noMarker noQualifier form qualifier isExt file
  have staged : stagedName file = c :=
    stagedName_of_plain form qualifier isExt (fun _ => noMarker) (fun _ _ => noQualifier)
  have free : ∀ u ∈ file, CodeUnit.is u '/' = false := by
    intro u hu
    rw [CodeUnit.is_char, beq_eq_false_iff_ne]
    rintro rfl
    rcases List.mem_append.mp hu with front | hu
    · exact segment front
    rcases List.mem_append.mp hu with mark | behind
    · exact slash_not_mem_of_form form mark
    · exact Ending.not_mem_behind (by decide) isExt qualifier behind
  have proper : Path.isProper file = true := by
    apply isProper_of_hasExtension
    apply endsFolded_append
    apply endsFolded_append
    apply endsFolded_append
    exact endsFolded_of_map_eq (Ending.isExtension_iff.mp isExt)
  refine ⟨?_, ?_⟩
  · rw [stages, Path.basename_of_no_slash free, staged]
  · intro d
    rw [stages, Path.basename_append_slash (by decide) free proper, staged]

/-- A file with the marker in upper case and a qualifier with the long s.  The
name that is left ends in a tilde alone, and has a marker further in front. -/
theorem bundleName_of_stagedIcon :
    let c := "icon@2xl~".toList
    let qualifier := '~' :: ['\u017F', 'i', 'P']
    let file := c ++ ("@2X".toList ++ (qualifier ++ ".PnG".toList))
    bundleName file = c ∧ bundleName ("b@2x.png/.".toList ++ '/' :: file) = c := by
  intro c qualifier file
  have letters : ∀ letters, some ['\u017F', 'i', 'P'] = some letters →
      Ending.IsQualifier letters := by
    rintro _ ⟨⟩
    exact ⟨by decide, by simp [Ending.isQualifierLetter]⟩
  obtain ⟨alone, within⟩ := bundleName_in_stages.2 c "@2X".toList ".PnG".toList
    (some ['\u017F', 'i', 'P']) (by decide) (by decide) (by decide) (.inr (by decide))
    letters (by decide)
  exact ⟨alone, within _⟩

end AssetAudit

/-
AssetAudit/Proofs/Variants.lean

What the variant checks see of an ending.

The ending that a bundle name leaves out says which variant a file is, and the
checks look for the same on the path.  A qualifier for a device is seen by the
check for that device, and by it alone, in whatever letter case it is written.
The marker is seen if it is written `@2x`; written `@2X` it counts as a part of
the ending, but not for the check (`Ending.isRetina_of_upper_marker`).

Main result: `variants_of_ending`.
-/
import AssetAudit.Proofs.Basename
import AssetAudit.Proofs.Checks
import AssetAudit.Proofs.Endings

namespace AssetAudit

namespace Ending

variable {t : Text} {e : Ending}

/-! ### The marker of an ending -/

/-- An ending has the marker if it begins with it, in either letter case. -/
theorem resolution_iff (h : ofText? t = some e) :
    e.resolution = true ↔ "@2x".toList <+: t ∨ "@2X".toList <+: t := by
  obtain ⟨marker, mem, ext, isExt, rfl, _⟩ := ofText?_eq_some_iff.mp h
  obtain ⟨resolution, q⟩ := e
  cases resolution with
  | true =>
    rcases (mem_markers_iff rfl).mp mem with rfl | rfl
    · exact iff_of_true rfl (.inl (List.prefix_append ..))
    · exact iff_of_true rfl (.inr (List.prefix_append ..))
  | false =>
    obtain rfl := eq_nil_of_mem_markers rfl mem
    obtain ⟨rest, rfl⟩ := exists_of_isExtension isExt
    refine iff_of_false Bool.false_ne_true ?_
    -- the qualifier begins with a tilde, and the extension with a dot
    cases q with
    | none => simp [writtenQualifier]
    | some letters => simp [writtenQualifier]

/-- Behind a marker written `@2X` there is no other. -/
theorem isRetina_of_upper_marker (h : ofText? t = some e) (upper : "@2X".toList <+: t) :
    isRetina t = false := by
  obtain ⟨marker, mem, ext, isExt, rfl, letters⟩ := ofText?_eq_some_iff.mp h
  have free : '@' ∉ _ := not_mem_behind (by decide) isExt letters
  have two := (mem_markers_iff ((resolution_iff h).mpr (.inr upper))).mp mem
  rw [← Bool.not_eq_true, isRetina_iff]
  generalize writtenQualifier e.qualifier ++ ext = rest at free upper
  have other : marker = "@2X".toList := by
    rcases two with rfl | rfl
    · simp at upper
    · rfl
  subst other
  intro found
  -- it could only begin where an `@` stands
  have later : "@2x".toList <:+: rest := by simpa [List.infix_cons_iff] using found
  exact free (later.subset (by decide))

end Ending

/-! ### Front and ending of a path -/

/-- The marker cannot reach over the place where another begins. -/
theorem isRetina_append_at (front rest : Text) :
    isRetina (front ++ '@' :: rest) = (isRetina front || isRetina ('@' :: rest)) := by
  rw [Bool.eq_iff_iff, Bool.or_eq_true, isRetina_iff, isRetina_iff, isRetina_iff,
    List.infix_append_iff]
  refine ⟨?_, fun h => h.imp_right .inl⟩
  rintro (before | behind | ⟨u, v, e, hu, hv⟩)
  · exact .inl before
  · exact .inr behind
  · -- either part of the marker is empty, since it holds one `@`, at its front
    cases u with
    | nil =>
      rw [List.nil_append] at e
      exact .inr (e ▸ hv.isInfix)
    | cons c u =>
      cases v with
      | nil =>
        rw [List.append_nil] at e
        exact .inl (e ▸ hu.isInfix)
      | cons d v =>
        obtain ⟨rfl, _⟩ := List.cons_prefix_cons.mp hv
        obtain ⟨_, tail⟩ : '@' = c ∧ ['2', 'x'] = u ++ '@' :: v := by simpa using e
        have inner : '@' ∈ ['2', 'x'] := tail ▸ List.mem_append_right _ (List.mem_cons_self ..)
        simp at inner

/-- No file is meant for two devices. -/
theorem isFor_other {d other : Device} {path : Text} (h : isFor d path = true) (ne : other ≠ d) :
    isFor other path = false := by
  cases d with
  | ipad =>
    cases other with
    | ipad => exact absurd rfl ne
    | iphone => exact isFor_iphone_of_isFor_ipad h
  | iphone =>
    cases other with
    | ipad =>
      rw [← Bool.not_eq_true]
      intro both
      rw [isFor_iphone_of_isFor_ipad both] at h
      cases h
    | iphone => exact absurd rfl ne

/-- A path whose ending has a device's qualifier is that of a file for it. -/
theorem isFor_append {front t letters : Text} {e : Ending} {d : Device}
    (h : Ending.ofText? t = some e) (q : e.qualifier = some letters)
    (same : '~' :: letters.map Char.toLower = d.qualifier) : isFor d (front ++ t) = true := by
  obtain ⟨marker, _, ext, isExt, rfl, _⟩ := Ending.ofText?_eq_some_iff.mp h
  rw [isFor, Bool.or_eq_true]
  right
  apply endsFolded_append
  apply endsFolded_append
  apply endsFolded_of_map_eq
  rw [q, Ending.writtenQualifier, List.map_append, Ending.isExtension_iff.mp isExt, List.map_cons,
    ← same]
  rfl

/-- **The variant checks see what an ending says, but for a marker written
`@2X`.**  Of a path whose last segment is a file name with an ending, what the
bundle name leaves out stands at the end of the path.  Its marker is `@2x` or
`@2X`; the path passes for that of a Retina file in the first case, and in the
second only if the marker stands further in front too.  A device's qualifier, in
any letter case, makes the path that of a file for this device and no other. -/
theorem variants_of_ending {raw c : Text} {e : Ending}
    (form : raw = c ∨ ∃ dir, raw = dir ++ '/' :: c) (segment : '/' ∉ c)
    (proper : Path.isProper c = true) (ending : endingOf? raw = some e) :
    ∃ front removed : Text, raw = front ++ removed ∧ c = bundleName raw ++ removed ∧
      Ending.ofText? removed = some e ∧
      (e.resolution = true ↔ "@2x".toList <+: removed ∨ "@2X".toList <+: removed) ∧
      ("@2x".toList <+: removed → isRetina raw = true) ∧
      ("@2X".toList <+: removed → (isRetina raw = true ↔ "@2x".toList <:+: front)) ∧
      ∀ d letters, e.qualifier = some letters →
        '~' :: letters.map Char.toLower = d.qualifier →
          isFor d raw = true ∧ ∀ other, other ≠ d → isFor other raw = false := by
  have free : ∀ u ∈ c, CodeUnit.is u '/' = false := by
    intro u hu
    rw [CodeUnit.is_char, beq_eq_false_iff_ne]
    exact fun e => segment (e ▸ hu)
  have base : Path.basename raw = c := by
    rcases form with rfl | ⟨dir, rfl⟩
    · exact Path.basename_of_no_slash free
    · exact Path.basename_append_slash (CodeUnit.is_char .. ▸ beq_self_eq_true '/') free proper
  obtain ⟨removed, cut, written⟩ := removed_of_splitEnding ending
  rw [base] at cut
  have bundle : (splitEnding c).1 = bundleName raw := by rw [bundleName, base]
  rw [bundle] at cut
  obtain ⟨front, whole⟩ : ∃ front, raw = front ++ removed := by
    rcases form with rfl | ⟨dir, rfl⟩
    · exact ⟨_, cut⟩
    · exact ⟨dir ++ '/' :: bundleName (dir ++ '/' :: c), by
        rw [List.append_assoc, List.cons_append, ← cut]⟩
  refine ⟨front, removed, whole, cut, written, Ending.resolution_iff written, ?_, ?_, ?_⟩
  · intro lower
    rw [isRetina_iff, whole]
    exact lower.isInfix.trans (List.suffix_append ..).isInfix
  · intro upper
    have lost := Ending.isRetina_of_upper_marker written upper
    obtain ⟨rest, rfl⟩ := upper
    rw [whole, ← isRetina_iff]
    show isRetina (front ++ '@' :: _) = true ↔ _
    rw [isRetina_append_at]
    show (isRetina front || isRetina ("@2X".toList ++ rest)) = true ↔ _
    rw [lost, Bool.or_false]
  · intro d letters q same
    have here : isFor d raw = true := whole ▸ isFor_append written q same
    exact ⟨here, fun other ne => isFor_other here ne⟩

/-- A file in a directory, for the iPad and with the marker. -/
theorem variants_of_ending_of_icon :
    let raw := "Images/icon@2x~iPad.PNG".toList
    endingOf? raw = some ⟨true, some "iPad".toList⟩ ∧ bundleName raw = "icon".toList ∧
      isRetina raw = true ∧ isFor .ipad raw = true ∧ isFor .iphone raw = false := by
  intro raw
  have ending : endingOf? raw = some ⟨true, some "iPad".toList⟩ := by decide
  have bundle : bundleName raw = "icon".toList := by decide
  obtain ⟨_, removed, _, cut, _, _, lower, _, device⟩ := variants_of_ending
    (c := "icon@2x~iPad.PNG".toList) (.inr ⟨"Images".toList, by decide⟩) (by decide) (by decide)
    ending
  obtain ⟨ipad, others⟩ := device .ipad _ rfl (by decide)
  rw [bundle] at cut
  have whole : "icon".toList ++ "@2x~iPad.PNG".toList = "icon".toList ++ removed := cut
  have marker : "@2x".toList <+: removed := List.append_cancel_left whole ▸ by decide
  exact ⟨ending, bundle, lower marker, ipad, others .iphone (by decide)⟩

/-- The ending of this file has the marker, and the Retina check does not see
it. -/
theorem variants_of_ending_of_upper_marker :
    bundleName "icon@2X.png".toList = "icon".toList ∧
      endingOf? "icon@2X.png".toList = some ⟨true, none⟩ ∧
      isRetina "icon@2X.png".toList = false := by
  decide

end AssetAudit

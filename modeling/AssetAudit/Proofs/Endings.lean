/-
AssetAudit/Proofs/Endings.lean

How endings are written, and which names have one.

An ending is written as a marker, if it has one, a qualifier, if it has one,
and an extension (`Ending.ofText?_eq_some_iff`).  Only the marker, the letter
case of the extension and the letters of the qualifier are open, so a name has
an ending exactly if it ends in the extension (`splitEnding_eq_none_iff`), and
what is removed from it is one (`removed_of_splitEnding`).
-/
import AssetAudit.Name.Bundle
import AssetAudit.Name.Variant

namespace AssetAudit

/-! ### Ends of texts, up to letter case -/

/-- Folding the number of a character gives that of its lower case. -/
theorem toNat_toLower (c : Char) : c.toLower.toNat = CodeUnit.foldCode c.toNat := by
  obtain ⟨first, last, step⟩ :
      'A'.val.toNat = 65 ∧ 'Z'.val.toNat = 90 ∧ ('a'.val - 'A'.val).toNat = 32 := by decide
  rw [CodeUnit.foldCode]
  by_cases h : c.val ≥ 'A'.val ∧ c.val ≤ 'Z'.val
  · have bounds : 65 ≤ c.toNat ∧ c.toNat ≤ 90 := by
      rw [← first, ← last]
      exact h
    have lower : c.toLower.val = c.val + ('a'.val - 'A'.val) := congrArg Char.val (dif_pos h)
    have small : c.toNat + 32 < 2 ^ 32 := by omega
    calc c.toLower.toNat = (c.val + ('a'.val - 'A'.val)).toNat := congrArg UInt32.toNat lower
      _ = (c.toNat + 32) % 2 ^ 32 := by
        rw [UInt32.toNat_add, step]
        rfl
      _ = c.toNat + 32 := Nat.mod_eq_of_lt small
      _ = _ := (if_pos bounds).symm
  · have bounds : ¬(65 ≤ c.toNat ∧ c.toNat ≤ 90) := by
      rw [← first, ← last]
      exact h
    have same : c.toLower = c := dif_neg h
    rw [same, if_neg bounds]

section EndsFolded

variable {word path : Text}

theorem endsFolded_iff : endsFolded word path = true ↔ word <:+ path.map Char.toLower :=
  List.isSuffixOf_iff_suffix

/-- What stands in front of a word does not matter. -/
theorem endsFolded_append (front : Text) (h : endsFolded word path = true) :
    endsFolded word (front ++ path) = true := by
  rw [endsFolded_iff] at h ⊢
  rw [List.map_append]
  exact h.trans (List.suffix_append ..)

theorem endsFolded_of_map_eq (h : path.map Char.toLower = word) : endsFolded word path = true :=
  endsFolded_iff.mpr ⟨[], h.symm⟩

theorem exists_of_endsFolded (h : endsFolded word path = true) :
    ∃ front back, path = front ++ back ∧ back.map Char.toLower = word := by
  obtain ⟨start, e⟩ := endsFolded_iff.mp h
  obtain ⟨front, back, rfl, _, same⟩ := List.map_eq_append_iff.mp e.symm
  exact ⟨front, back, rfl, same⟩

end EndsFolded

/-- The name ends in the extension, in some letter case. -/
def hasExtension (name : Text) : Bool :=
  endsFolded ".png".toList name

namespace Ending

/-! ### Extensions -/

theorem eq_dot_of_toLower {c : Char} (h : c.toLower = '.') : c = '.' := by
  have folded : CodeUnit.foldCode c.toNat = 46 := by
    rw [← toNat_toLower, h]
    rfl
  -- no number of a capital letter is folded to that of the dot
  have number : c.toNat = 46 := by
    rw [CodeUnit.foldCode] at folded
    split at folded <;> omega
  exact Char.toNat_inj.mp number

theorem length_of_isExtension {t : Text} (h : isExtension t = true) : t.length = 4 := by
  simpa using congrArg List.length (isExtension_iff.mp h)

theorem exists_of_isExtension {t : Text} (h : isExtension t = true) : ∃ rest, t = '.' :: rest := by
  have folded := isExtension_iff.mp h
  cases t with
  | nil => cases folded
  | cons c rest => exact ⟨rest, by rw [eq_dot_of_toLower (List.cons.inj folded).1]⟩

/-! ### Spellings -/

/-- The spellings of the marker, of which there are two if it stands there. -/
def markers (e : Ending) : List Text :=
  if e.resolution then ["@2x".toList, "@2X".toList] else [[]]

theorem mem_markers_iff {e : Ending} (h : e.resolution = true) {marker : Text} :
    marker ∈ e.markers ↔ marker = "@2x".toList ∨ marker = "@2X".toList := by
  simp [markers, h]

theorem eq_nil_of_mem_markers {e : Ending} (h : e.resolution = false) {marker : Text}
    (mem : marker ∈ e.markers) : marker = [] := by
  simpa [markers, h] using mem

/-- A qualifier as it is written. -/
def writtenQualifier : Option Text → Text
  | none => []
  | some letters => '~' :: letters

/-- A qualifier has letters only, and some. -/
def IsQualifier (letters : Text) : Prop :=
  letters ≠ [] ∧ ∀ c ∈ letters, isQualifierLetter c = true

theorem afterMarker?_eq_some_iff {t rest : Text} :
    afterMarker? t = some rest ↔ t = "@2x".toList ++ rest ∨ t = "@2X".toList ++ rest := by
  constructor
  · intro h
    unfold afterMarker? at h
    split at h
    · cases h
      exact .inl rfl
    · cases h
      exact .inr rfl
    · cases h
  · rintro (rfl | rfl) <;> rfl

theorem qualifierOf?_eq_some_iff {t : Text} {q : Option Text} :
    qualifierOf? t = some q ↔
      ∃ ext, isExtension ext = true ∧ t = writtenQualifier q ++ ext ∧
        ∀ letters, q = some letters → IsQualifier letters := by
  constructor
  · intro h
    unfold qualifierOf? at h
    split at h
    · rename_i t
      dsimp only at h
      split at h
      · rename_i found
        rw [Bool.and_eq_true, Bool.not_eq_true', List.isEmpty_eq_false_iff] at found
        cases h
        refine ⟨_, found.2, ?_, ?_⟩
        · rw [writtenQualifier, List.cons_append, List.takeWhile_append_dropWhile]
        · rintro letters ⟨⟩
          exact ⟨found.1, List.all_eq_true.mp List.all_takeWhile⟩
      · cases h
    · split at h
      · rename_i ext
        cases h
        exact ⟨t, ext, rfl, by simp⟩
      · cases h
  · rintro ⟨ext, isExt, rfl, letters⟩
    obtain ⟨rest, rfl⟩ := exists_of_isExtension isExt
    cases q with
    | none =>
      show (if isExtension ('.' :: rest) then some none else none) = some none
      rw [if_pos isExt]
    | some q =>
      obtain ⟨some, all⟩ := letters q rfl
      -- the letters end where the extension begins
      have taken : (q ++ '.' :: rest).takeWhile isQualifierLetter = q := by
        rw [List.takeWhile_append_of_pos all, List.takeWhile_cons_of_neg (by decide),
          List.append_nil]
      have left : (q ++ '.' :: rest).dropWhile isQualifierLetter = '.' :: rest := by
        rw [List.dropWhile_append_of_pos all, List.dropWhile_cons_of_neg (by decide)]
      rw [writtenQualifier, List.cons_append, qualifierOf?, taken, left]
      simp [isExt, some]

/-- An ending is written as its marker, its qualifier and an extension. -/
theorem ofText?_eq_some_iff {t : Text} {e : Ending} :
    ofText? t = some e ↔
      ∃ marker ∈ e.markers, ∃ ext, isExtension ext = true ∧
        t = marker ++ (writtenQualifier e.qualifier ++ ext) ∧
        ∀ letters, e.qualifier = some letters → IsQualifier letters := by
  constructor
  · intro h
    unfold ofText? at h
    split at h
    · rename_i rest behind
      obtain ⟨q, found, rfl⟩ := Option.map_eq_some_iff.mp h
      obtain ⟨ext, isExt, rfl, letters⟩ := qualifierOf?_eq_some_iff.mp found
      rcases afterMarker?_eq_some_iff.mp behind with rfl | rfl
      · exact ⟨_, (mem_markers_iff rfl).mpr (.inl rfl), ext, isExt, rfl, letters⟩
      · exact ⟨_, (mem_markers_iff rfl).mpr (.inr rfl), ext, isExt, rfl, letters⟩
    · obtain ⟨q, found, rfl⟩ := Option.map_eq_some_iff.mp h
      obtain ⟨ext, isExt, rfl, letters⟩ := qualifierOf?_eq_some_iff.mp found
      exact ⟨[], by simp [markers], ext, isExt, rfl, letters⟩
  · rintro ⟨marker, mem, ext, isExt, rfl, letters⟩
    have found := qualifierOf?_eq_some_iff.mpr ⟨ext, isExt, rfl, letters⟩
    obtain ⟨resolution, q⟩ := e
    cases resolution with
    | true =>
      have behind : afterMarker? (marker ++ (writtenQualifier q ++ ext)) =
          some (writtenQualifier q ++ ext) := by
        rw [afterMarker?_eq_some_iff]
        rcases (mem_markers_iff rfl).mp mem with rfl | rfl
        · exact .inl rfl
        · exact .inr rfl
      rw [ofText?, behind]
      exact congrArg (Option.map _) found
    | false =>
      obtain rfl := eq_nil_of_mem_markers rfl mem
      -- neither a qualifier nor an extension begins like a marker
      have behind : afterMarker? (writtenQualifier q ++ ext) = none := by
        obtain ⟨rest, rfl⟩ := exists_of_isExtension isExt
        cases q <;> rfl
      rw [List.nil_append, ofText?, behind]
      exact congrArg (Option.map _) found

/-- Behind the marker there are letters, a tilde and the extension only. -/
theorem not_mem_behind {x : Char} {q : Option Text} {ext : Text}
    (hx : x ≠ '~' ∧ isQualifierLetter x = false ∧ x.toLower ∉ ".png".toList)
    (isExt : isExtension ext = true) (letters : ∀ ls, q = some ls → IsQualifier ls) :
    x ∉ writtenQualifier q ++ ext := by
  obtain ⟨tilde, letter, folded⟩ := hx
  rw [List.mem_append, not_or]
  constructor
  · cases q with
    | none => exact List.not_mem_nil
    | some ls =>
      intro mem
      rcases List.mem_cons.mp mem with e | mem
      · exact tilde e
      · rw [(letters ls rfl).2 x mem] at letter
        cases letter
  · intro mem
    apply folded
    rw [← isExtension_iff.mp isExt]
    exact List.mem_map_of_mem mem

theorem hasExtension_of_ofText? {t : Text} {e : Ending} (h : ofText? t = some e) :
    hasExtension t = true := by
  obtain ⟨marker, _, ext, isExt, rfl, _⟩ := ofText?_eq_some_iff.mp h
  exact endsFolded_append _ (endsFolded_append _ (endsFolded_of_map_eq (isExtension_iff.mp isExt)))

/-- An extension alone is an ending. -/
theorem ofText?_of_isExtension {t : Text} (h : isExtension t = true) :
    ofText? t = some ⟨false, none⟩ :=
  ofText?_eq_some_iff.mpr ⟨[], by simp [markers], t, h, rfl, by simp⟩

end Ending

/-! ### Which names have an ending -/

theorem eq_of_splitEnding_eq_none {t : Text} (h : (splitEnding t).2 = none) :
    (splitEnding t).1 = t ∧ ∀ s, s <:+ t → Ending.ofText? s = none := by
  induction t with
  | nil => exact ⟨rfl, fun s hs => by rw [List.suffix_nil.mp hs]; rfl⟩
  | cons c cs ih =>
    cases here : Ending.ofText? (c :: cs) with
    | some e => simp [splitEnding, here] at h
    | none =>
      simp only [splitEnding, here] at h ⊢
      obtain ⟨same, later⟩ := ih h
      refine ⟨by rw [same], ?_⟩
      intro s hs
      rcases List.suffix_cons_iff.mp hs with rfl | hs
      · exact here
      · exact later s hs

/-- What is removed from a name is its ending. -/
theorem removed_of_splitEnding {t : Text} {e : Ending} (h : (splitEnding t).2 = some e) :
    ∃ removed, t = (splitEnding t).1 ++ removed ∧ Ending.ofText? removed = some e := by
  induction t with
  | nil => cases h
  | cons c cs ih =>
    cases here : Ending.ofText? (c :: cs) with
    | some d =>
      simp only [splitEnding, here] at h ⊢
      exact ⟨c :: cs, rfl, here.trans h⟩
    | none =>
      simp only [splitEnding, here] at h ⊢
      obtain ⟨removed, cut, ending⟩ := ih h
      exact ⟨removed, congrArg (c :: ·) cut, ending⟩

/-- A name has an ending exactly if it has the extension. -/
theorem splitEnding_eq_none_iff {t : Text} :
    (splitEnding t).2 = none ↔ hasExtension t = false := by
  constructor
  · intro h
    rw [← Bool.not_eq_true]
    intro has
    obtain ⟨front, back, rfl, folded⟩ := exists_of_endsFolded has
    have ending := Ending.ofText?_of_isExtension (Ending.isExtension_iff.mpr folded)
    rw [(eq_of_splitEnding_eq_none h).2 back (List.suffix_append ..)] at ending
    cases ending
  · intro h
    cases found : (splitEnding t).2 with
    | none => rfl
    | some e =>
      obtain ⟨removed, cut, ending⟩ := removed_of_splitEnding found
      have has := endsFolded_append (splitEnding t).1 (Ending.hasExtension_of_ofText? ending)
      rw [← cut] at has
      exact absurd has (by simpa [hasExtension] using h)

/-- Nothing is removed exactly from the names without the extension. -/
theorem splitEnding_eq_self_iff {t : Text} : (splitEnding t).1 = t ↔ hasExtension t = false := by
  rw [← splitEnding_eq_none_iff]
  constructor
  · intro same
    cases found : (splitEnding t).2 with
    | none => rfl
    | some e =>
      obtain ⟨removed, cut, ending⟩ := removed_of_splitEnding found
      rw [same] at cut
      rw [List.self_eq_append_right.mp cut] at ending
      cases ending
  · exact fun h => (eq_of_splitEnding_eq_none h).1

end AssetAudit

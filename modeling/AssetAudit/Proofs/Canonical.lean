/-
AssetAudit/Proofs/Canonical.lean

Bundle names of bundle names.

A bundle name is a text without a slash, or it is the whole of a path that has
no file name; in both cases it is its own file name (`basename_bundleName`).
So taking the bundle name again takes one more ending off, if there is one:
`bundleName_bundleName_iff` says that nothing changes exactly if the bundle name
does not end in the extension itself.

An image of a catalogue is known by a bundle name, and is found under it again
by an upsert on the same condition (`Catalogue.upsert_own_name`).
-/
import AssetAudit.Proofs.Basename
import AssetAudit.Proofs.Endings
import AssetAudit.Proofs.Operations

namespace AssetAudit

/-! ### Paths with the extension -/

/-- A word behind which a unit stands that it lacks begins behind that unit. -/
theorem suffix_of_suffix_append_cons {α : Type} {word l m : List α} {x : α}
    (h : word <:+ l ++ x :: m) (hx : x ∉ word) : word <:+ m := by
  rcases List.suffix_or_suffix_of_suffix h (List.suffix_append l (x :: m)) with short | long
  · rcases List.suffix_cons_iff.mp short with rfl | short
    · exact absurd (List.mem_cons_self ..) hx
    · exact short
  · exact absurd (long.subset (List.mem_cons_self ..)) hx

theorem hasExtension_of_append_slash {d c : Text} (h : hasExtension (d ++ '/' :: c) = true) :
    hasExtension c = true := by
  rw [hasExtension, endsFolded_iff] at h ⊢
  rw [List.map_append, List.map_cons] at h
  exact suffix_of_suffix_append_cons h (by decide)

/-- What ends in the extension is neither empty nor made of dots alone. -/
theorem isProper_of_hasExtension {c : Text} (h : hasExtension c = true) :
    Path.isProper c = true := by
  obtain ⟨front, back, rfl, folded⟩ := exists_of_endsFolded h
  have four : back.length = 4 := by simpa using congrArg List.length folded
  have long : 3 ≤ (front ++ back).length := by
    rw [List.length_append, four]
    omega
  match hc : front ++ back, long with
  | _ :: _ :: _ :: _, _ => rfl

/-- A path that ends in the extension has a file name. -/
theorem hasExtension_of_fileName?_eq_none {p : Text} (h : Path.fileName? p = none) :
    hasExtension p = false := by
  rw [← Bool.not_eq_true]
  intro has
  rcases Path.eq_or_exists_last_segment p with free | ⟨d, slash, c, rfl, hs, free⟩
  · rw [Path.fileName?_of_segment free (isProper_of_hasExtension has)] at h
    cases h
  · obtain rfl : slash = '/' := by simpa using hs
    have proper := isProper_of_hasExtension (hasExtension_of_append_slash has)
    rw [Path.fileName?_append_slash hs free proper] at h
    cases h

/-! ### Taking the bundle name again -/

theorem bundleName_isPrefix (raw : Text) : bundleName raw <+: Path.basename raw := by
  rw [bundleName]
  cases found : (splitEnding (Path.basename raw)).2 with
  | none =>
    obtain ⟨same, _⟩ := eq_of_splitEnding_eq_none found
    exact ⟨[], by rw [List.append_nil, same]⟩
  | some e =>
    obtain ⟨removed, cut, _⟩ := removed_of_splitEnding found
    exact ⟨removed, cut.symm⟩

/-- A bundle name is its own file name. -/
theorem basename_bundleName (raw : Text) : Path.basename (bundleName raw) = bundleName raw := by
  have start := bundleName_isPrefix raw
  cases h : Path.fileName? raw with
  | some name =>
    rw [Path.basename, h, Option.getD_some] at start
    apply Path.basename_of_no_slash
    intro u hu
    exact Path.no_slash_of_fileName? h u (start.subset hu)
  | none =>
    -- such a path has no ending either, so it is all taken over
    have whole : Path.basename raw = raw := by rw [Path.basename, h, Option.getD_none]
    have same : bundleName raw = raw := by
      rw [bundleName, whole]
      exact splitEnding_eq_self_iff.mpr (hasExtension_of_fileName?_eq_none h)
    rw [same, whole]

/-- Taking the bundle name again changes nothing exactly if the bundle name
does not end in the extension. -/
theorem bundleName_bundleName_iff (raw : Text) :
    bundleName (bundleName raw) = bundleName raw ↔ hasExtension (bundleName raw) = false := by
  rw [bundleName, basename_bundleName]
  exact splitEnding_eq_self_iff

/-! ### Images under their own names -/

namespace Catalogue

/-- An image of a catalogue is found under its name. -/
theorem get?_of_mem {c : Catalogue} {a : Asset} (h : a ∈ c.assets) : c.get? a.bundle = some a := by
  have distinct : c.bundles.Nodup := c.keys_eq_bundles ▸ c.distinct
  rw [bundles] at distinct
  rw [get?_eq_find?]
  generalize c.assets = as at h distinct
  induction as with
  | nil => cases h
  | cons b as ih =>
    obtain ⟨fresh, distinct⟩ := List.nodup_cons.mp distinct
    rcases List.mem_cons.mp h with rfl | h
    · exact List.find?_cons_of_pos (beq_self_eq_true a.bundle)
    · have other : b.bundle ≠ a.bundle := fun e => fresh (List.mem_map.mpr ⟨a, h, e.symm⟩)
      rw [List.find?_cons_of_neg (by simpa using other)]
      exact ih h distinct

theorem exists_of_part? {op : Operation} {p : Asset} (h : op.part? = some p) :
    ∃ raw, p.bundle = bundleName raw := by
  cases op with
  | upsert name items => cases h; exact ⟨name, rfl⟩
  | look n => cases h
  | sight s =>
    cases h
    cases s with
    | file path => exact ⟨Utf8.decodeLossy path, rfl⟩
    | mention name source => exact ⟨name, rfl⟩

/-- The images after a run are known by bundle names. -/
theorem exists_bundleName_of_mem_run {ops : List Operation} {a : Asset}
    (h : a ∈ (run ops).assets) : ∃ raw, a.bundle = bundleName raw := by
  rw [run_eq_ofParts, assets_ofParts, mem_gathered] at h
  obtain ⟨p, hp, name⟩ := List.mem_map.mp h.1
  obtain ⟨op, _, part⟩ := List.mem_filterMap.mp hp
  obtain ⟨raw, e⟩ := exists_of_part? part
  exact ⟨raw, name ▸ e⟩

theorem apply_upsert (c : Catalogue) (name : Text) (items : List Item) :
    c.apply (.upsert name items) =
      c.add (bundleName name) (items.filterMap Item.file?) (items.filterMap Item.reference?) :=
  c.apply_eq_elim (.upsert name items)

/-- **An image is found again under its own name, unless that ends in the
extension.**  Taking a bundle name again changes nothing exactly if it does not
end in `.png`, in any letter case.  So an upsert under the name of an image puts
its items to that image and makes no other, if the name does not end so; if it
does, they go to an image of a shorter name, and the one that was meant stays as
it is. -/
theorem upsert_own_name (ops : List Operation) :
    (∀ raw, bundleName (bundleName raw) = bundleName raw ↔ hasExtension (bundleName raw) = false) ∧
    ∀ a ∈ (run ops).assets, ∀ items : List Item,
      let after := (run ops).apply (.upsert a.bundle items)
      (hasExtension a.bundle = false →
        after.bundles = (run ops).bundles ∧
        after.get? a.bundle =
          some (a.append (items.filterMap Item.file?) (items.filterMap Item.reference?)) ∧
        ∀ n, n ≠ a.bundle → after.get? n = (run ops).get? n) ∧
      (hasExtension a.bundle = true →
        bundleName a.bundle ≠ a.bundle ∧ bundleName a.bundle ∈ after.bundles ∧
        after.get? a.bundle = some a) := by
  refine ⟨bundleName_bundleName_iff, ?_⟩
  intro a mem items after
  have found := get?_of_mem mem
  have known : a.bundle ∈ (run ops).bundles := List.mem_map_of_mem mem
  obtain ⟨raw, name⟩ := exists_bundleName_of_mem_run mem
  have again : bundleName a.bundle = a.bundle ↔ hasExtension a.bundle = false := by
    rw [name]
    exact bundleName_bundleName_iff raw
  have added : after = _ := apply_upsert (run ops) a.bundle items
  constructor
  · intro bare
    rw [again.mpr bare] at added
    refine ⟨?_, ?_, ?_⟩
    · rw [added, bundles_add, if_pos known]
    · rw [added, get?_add, if_pos rfl, found, Option.getD_some]
    · intro n hn
      rw [added, get?_add, if_neg hn]
  · intro has
    have shorter : bundleName a.bundle ≠ a.bundle := by
      rw [ne_eq, again, has]
      simp
    refine ⟨shorter, ?_, ?_⟩
    · rw [added, bundles_add]
      split
      · assumption
      · exact List.mem_append_right _ (List.mem_singleton.mpr rfl)
    · rw [added, get?_add, if_neg shorter.symm, found]

/-- An image that was found on disk and mentioned, and is then upserted with a
further file. -/
theorem upsert_own_name_of_icon :
    let ops := [.sight (.file (Utf8.encode "Images/icon@2x.png".toList)),
      .upsert "icon~ipad.PNG".toList [.reference (Utf8.encode "A.m".toList)]]
    let icon : Asset := ⟨"icon".toList, ["Images/icon@2x.png".toList], [Utf8.encode "A.m".toList]⟩
    let after := (run ops).apply (.upsert "icon".toList [.file "icon.png".toList])
    icon ∈ (run ops).assets ∧ hasExtension icon.bundle = false ∧
      after.bundles = ["icon".toList] ∧
      after.get? "icon".toList = some (icon.append ["icon.png".toList] []) := by
  intro ops icon after
  have mem : icon ∈ (run ops).assets := by decide
  have bare : hasExtension icon.bundle = false := by decide
  obtain ⟨_, again⟩ := upsert_own_name ops
  obtain ⟨bundles, found, _⟩ := (again icon mem [.file "icon.png".toList]).1 bare
  exact ⟨mem, bare, bundles.trans (by decide), found⟩

/-- A file name with two extensions has a bundle name with one, which is not its
own bundle name: an upsert under it makes a second image. -/
theorem upsert_own_name_of_two_extensions :
    bundleName "a.png.png".toList = "a.png".toList ∧
      bundleName (bundleName "a.png.png".toList) ≠ bundleName "a.png.png".toList ∧
      (run [.upsert "a.png.png".toList [], .upsert (bundleName "a.png.png".toList) []]).bundles =
        ["a.png".toList, "a".toList] := by
  decide

end Catalogue

end AssetAudit

/-
AssetAudit/Proofs/Checks.lean

No check hides another.

In a group of checks the second is made only where the first finds nothing
wrong.  Nothing is lost by that, since the two checks of a group never fail on
the same image:

* an image without files has a mention, or it would not be known at all
  (`files_or_references`);
* the tests of a variant group exclude each other on every path, so they
  cannot both hold of all files (`allFiles_exclusive`).  For the devices this
  is a fact about the ends of paths (`isFor_iphone_of_isFor_ipad`).

So the findings are those of seven checks, each made for itself
(`findings_eq_of_known`).
-/
import AssetAudit.Finding
import AssetAudit.Proofs.Operations

namespace AssetAudit

/-! ### Ends of paths -/

/-- A path ends in two words only if one of them ends in the other. -/
theorem endsFolded_exclusive {u v path : Text} (h : ¬ u <:+ v) (h' : ¬ v <:+ u)
    (hu : endsFolded u path = true) : endsFolded v path = false := by
  rw [endsFolded, List.isSuffixOf_iff_suffix] at hu
  rw [endsFolded, ← Bool.not_eq_true, List.isSuffixOf_iff_suffix]
  intro hv
  rcases List.suffix_or_suffix_of_suffix hu hv with e | e
  · exact h e
  · exact h' e

/-- No file is meant for both devices alone. -/
theorem isFor_iphone_of_isFor_ipad {path : Text} (h : isFor .ipad path = true) :
    isFor .iphone path = false := by
  rw [isFor, Bool.or_eq_true] at h
  rw [isFor, Bool.or_eq_false_iff]
  rcases h with h | h
  · exact ⟨endsFolded_exclusive (by decide) (by decide) h,
      endsFolded_exclusive (by decide) (by decide) h⟩
  · exact ⟨endsFolded_exclusive (by decide) (by decide) h,
      endsFolded_exclusive (by decide) (by decide) h⟩

namespace Asset

/-! ### The checks of a group -/

/-- Tests that exclude each other do not both hold of all files. -/
theorem allFiles_exclusive {a : Asset} {p q : Text → Bool} (h : ∀ f, p f = true → q f = false)
    (hp : a.allFiles p = true) : a.allFiles q = false := by
  obtain ⟨bundle, files, references⟩ := a
  -- without files neither test holds of all; else the first file decides
  cases files with
  | nil => rfl
  | cons f files =>
    have first : p f = true := by
      rw [allFiles, Bool.and_eq_true, List.all_cons, Bool.and_eq_true] at hp
      exact hp.2.1
    simp [allFiles, h f first]

theorem missing?_eq_none {a : Asset} {p : Part} (h : a.lacks p = false) : a.missing? p = none := by
  rw [missing?, h]
  rfl

/-- The checks of the first group exclude each other on a known image. -/
theorem missingFiles?_or_references {a : Asset} (known : a.files ≠ [] ∨ a.references ≠ []) :
    a.missingFiles? = none ∨ a.missing? .references = none := by
  rcases known with h | h
  · left
    have has : a.lacksFiles = false := by simpa [lacksFiles] using h
    rw [missingFiles?, has]
    rfl
  · right
    apply missing?_eq_none
    simpa [lacks] using h

/-- The checks of a variant group exclude each other. -/
theorem missing?_exclusive {a : Asset} {p q : Part}
    (h : a.lacks p = true → a.lacks q = false) :
    a.missing? p = none ∨ a.missing? q = none := by
  cases hp : a.lacks p with
  | false => exact .inl (missing?_eq_none hp)
  | true => exact .inr (missing?_eq_none (h hp))

theorem lacks_standard_of_lacks_retina {a : Asset} (h : a.lacks .retina = true) :
    a.lacks .standard = false :=
  allFiles_exclusive (fun f hf => by simpa using hf) h

theorem lacks_ipad_of_lacks_iphone {a : Asset} (h : a.lacks .iphone = true) :
    a.lacks .ipad = false :=
  allFiles_exclusive (fun _ => isFor_iphone_of_isFor_ipad) h

/-! ### All checks -/

/-- Of two findings that exclude each other the first is both. -/
theorem toList_orElse {x y : Option Finding} (h : x = none ∨ y = none) :
    (x <|> y).toList = x.toList ++ y.toList := by
  rcases h with rfl | rfl
  · rfl
  · cases x <;> rfl

/-- The findings of the four groups stand one behind the other. -/
theorem findings_eq_groups (a : Asset) :
    a.findings = (a.missingFiles? <|> a.missing? .references).toList ++
      (a.missing? .retina <|> a.missing? .standard).toList ++
      (a.missing? .iphone <|> a.missing? .ipad).toList ++ a.duplicates?.toList := by
  have cons (x : Option Finding) (rest : List (Option Finding)) :
      (x :: rest).filterMap id = x.toList ++ rest.filterMap id := by
    cases x <;> rfl
  simp only [findings, cons, List.filterMap_nil, List.append_nil, List.append_assoc]

/-- On a known image every check is made. -/
theorem findings_eq_of_known {a : Asset} (known : a.files ≠ [] ∨ a.references ≠ []) :
    a.findings = a.missingFiles?.toList ++ (a.missing? .references).toList ++
      (a.missing? .retina).toList ++ (a.missing? .standard).toList ++
      (a.missing? .iphone).toList ++ (a.missing? .ipad).toList ++ a.duplicates?.toList := by
  rw [findings_eq_groups, toList_orElse (missingFiles?_or_references known),
    toList_orElse (missing?_exclusive lacks_standard_of_lacks_retina),
    toList_orElse (missing?_exclusive lacks_ipad_of_lacks_iphone)]
  simp only [List.append_assoc]

/-! ### Complete images -/

theorem toList_missing? (a : Asset) (p : Part) :
    (a.missing? p).toList = if a.lacks p then [.missing p a.shownName] else [] := by
  rw [missing?]
  split <;> rfl

theorem toList_missingFiles? (a : Asset) :
    a.missingFiles?.toList =
      if a.lacksFiles then [.missingFiles a.bundle a.references] else [] := by
  rw [missingFiles?]
  split <;> rfl

theorem toList_duplicates? (a : Asset) :
    a.duplicates?.toList = if a.hasDuplicates then [.duplicates a.files] else [] := by
  rw [duplicates?]
  split <;> rfl

/-- The findings on a known image, one check at a time. -/
theorem mem_findings_iff {a : Asset} (known : a.files ≠ [] ∨ a.references ≠ []) {f : Finding} :
    f ∈ a.findings ↔
      (a.lacksFiles = true ∧ f = .missingFiles a.bundle a.references) ∨
      (∃ p, a.lacks p = true ∧ f = .missing p a.shownName) ∨
      (a.hasDuplicates = true ∧ f = .duplicates a.files) := by
  have mem_iff (c : Bool) (g : Finding) :
      f ∈ (if c then [g] else []) ↔ c = true ∧ f = g := by
    cases c <;> simp
  rw [findings_eq_of_known known]
  simp only [List.mem_append, toList_missing?, toList_missingFiles?, toList_duplicates?, mem_iff]
  constructor
  · rintro ((((((files | part) | part) | part) | part) | part) | duplicates)
    · exact .inl files
    · exact .inr (.inl ⟨_, part⟩)
    · exact .inr (.inl ⟨_, part⟩)
    · exact .inr (.inl ⟨_, part⟩)
    · exact .inr (.inl ⟨_, part⟩)
    · exact .inr (.inl ⟨_, part⟩)
    · exact .inr (.inr duplicates)
  · rintro (files | ⟨p, part⟩ | duplicates)
    · exact .inl (.inl (.inl (.inl (.inl (.inl files)))))
    · cases p with
      | references => exact .inl (.inl (.inl (.inl (.inl (.inr part)))))
      | retina => exact .inl (.inl (.inl (.inl (.inr part))))
      | standard => exact .inl (.inl (.inl (.inr part)))
      | iphone => exact .inl (.inl (.inr part))
      | ipad => exact .inl (.inr part)
    · exact .inr duplicates

/-- Where there are files, not all pass a test exactly if one fails it. -/
theorem allFiles_eq_false_iff {a : Asset} {p : Text → Bool} (h : a.lacksFiles = false) :
    a.allFiles p = false ↔ ∃ f ∈ a.files, p f = false := by
  rw [allFiles, h, Bool.not_false, Bool.true_and, List.all_eq_false]
  simp only [Bool.not_eq_true]

/-- An image without findings has a file, every part and no duplicates. -/
theorem findings_eq_nil_iff_of_known {a : Asset} (known : a.files ≠ [] ∨ a.references ≠ []) :
    a.findings = [] ↔
      a.lacksFiles = false ∧ (∀ p, a.lacks p = false) ∧ a.hasDuplicates = false := by
  have none_iff (b : Bool) (f : Finding) : (if b then [f] else []) = [] ↔ b = false := by
    cases b <;> simp
  rw [findings_eq_of_known known]
  simp only [List.append_eq_nil_iff, toList_missing?, toList_missingFiles?, toList_duplicates?,
    none_iff]
  constructor
  · rintro ⟨⟨⟨⟨⟨⟨files, references⟩, retina⟩, standard⟩, iphone⟩, ipad⟩, duplicates⟩
    refine ⟨files, ?_, duplicates⟩
    intro p
    cases p with
    | references => exact references
    | retina => exact retina
    | standard => exact standard
    | iphone => exact iphone
    | ipad => exact ipad
  · rintro ⟨files, parts, duplicates⟩
    exact ⟨⟨⟨⟨⟨⟨files, parts _⟩, parts _⟩, parts _⟩, parts _⟩, parts _⟩, duplicates⟩

/-- What an image needs to be without findings. -/
theorem findings_eq_nil_iff {a : Asset} (known : a.files ≠ [] ∨ a.references ≠ []) :
    a.findings = [] ↔
      a.references ≠ [] ∧
      (∃ f ∈ a.files, "@2x".toList <:+: f) ∧ (∃ f ∈ a.files, ¬ "@2x".toList <:+: f) ∧
      (∃ f ∈ a.files, isFor .ipad f = false) ∧ (∃ f ∈ a.files, isFor .iphone f = false) ∧
      (a.files.map Path.basename).Nodup := by
  rw [findings_eq_nil_iff_of_known known, hasDuplicates, hasRepeat_eq_false_iff]
  constructor
  · rintro ⟨files, parts, duplicates⟩
    refine ⟨by simpa [lacks] using parts .references, ?_, ?_, ?_, ?_, duplicates⟩
    · obtain ⟨f, hf, e⟩ := (allFiles_eq_false_iff files).mp (parts .retina)
      exact ⟨f, hf, isRetina_iff.mp (by simpa using e)⟩
    · obtain ⟨f, hf, e⟩ := (allFiles_eq_false_iff files).mp (parts .standard)
      exact ⟨f, hf, fun i => by simp [isRetina_iff.mpr i] at e⟩
    · exact (allFiles_eq_false_iff files).mp (parts .iphone)
    · exact (allFiles_eq_false_iff files).mp (parts .ipad)
  · rintro ⟨references, ⟨r, hr, retina⟩, ⟨s, hs, standard⟩, iphone, ipad, duplicates⟩
    -- a file of either kind is a file
    have files : a.lacksFiles = false := by
      rw [lacksFiles, List.isEmpty_eq_false_iff]
      exact List.ne_nil_of_mem hr
    refine ⟨files, ?_, duplicates⟩
    intro p
    cases p with
    | references => simpa [lacks] using references
    | retina =>
      exact (allFiles_eq_false_iff files).mpr ⟨r, hr, by simp [isRetina_iff.mpr retina]⟩
    | standard =>
      refine (allFiles_eq_false_iff files).mpr ⟨s, hs, ?_⟩
      rw [← Bool.not_eq_true, isRetina_iff]
      exact standard
    | iphone => exact (allFiles_eq_false_iff files).mpr iphone
    | ipad => exact (allFiles_eq_false_iff files).mpr ipad

end Asset

/-! ### Catalogues of what was come across -/

namespace Catalogue

/-- Each sighting brings something. -/
theorem files_or_references_part (s : Sighting) : s.part.files ≠ [] ∨ s.part.references ≠ [] := by
  cases s with
  | file path => exact .inl (List.cons_ne_nil _ _)
  | mention name source => exact .inr (List.cons_ne_nil _ _)

/-- An image that stands in a catalogue was come across, as a file or in a
mention. -/
theorem files_or_references {ss : List Sighting} {a : Asset}
    (h : a ∈ (ofSightings ss).assets) : a.files ≠ [] ∨ a.references ≠ [] := by
  -- its name is that of a sighting, and what that brought is in the asset
  rw [ofSightings_eq_ofParts, assets_ofParts, mem_gathered] at h
  obtain ⟨known, e⟩ := h
  obtain ⟨p, hp, name⟩ := List.mem_map.mp known
  obtain ⟨s, _, rfl⟩ := List.mem_map.mp hp
  rcases files_or_references_part s with some | some
  · left
    obtain ⟨f, hf⟩ := List.exists_mem_of_ne_nil _ some
    rw [e]
    exact List.ne_nil_of_mem (mem_files_mergedUnder.mpr ⟨_, hp, name, hf⟩)
  · right
    obtain ⟨r, hr⟩ := List.exists_mem_of_ne_nil _ some
    rw [e]
    exact List.ne_nil_of_mem (mem_references_mergedUnder.mpr ⟨_, hp, name, hr⟩)

/-- **No check hides another.**  Of an image that was come across there is one
finding for each of the seven checks that it fails, in the order of the
checks, and no other.  So it is without findings exactly if it is mentioned,
has files with the Retina marker and without it, files for either device, and
no two files of one name. -/
theorem findings_of_sightings {ss : List Sighting} {a : Asset}
    (h : a ∈ (ofSightings ss).assets) :
    a.findings =
        (if a.lacksFiles then [.missingFiles a.bundle a.references] else []) ++
        (if a.lacks .references then [.missing .references a.shownName] else []) ++
        (if a.lacks .retina then [.missing .retina a.shownName] else []) ++
        (if a.lacks .standard then [.missing .standard a.shownName] else []) ++
        (if a.lacks .iphone then [.missing .iphone a.shownName] else []) ++
        (if a.lacks .ipad then [.missing .ipad a.shownName] else []) ++
        (if a.hasDuplicates then [.duplicates a.files] else []) ∧
      (a.findings = [] ↔
        a.references ≠ [] ∧
        (∃ f ∈ a.files, "@2x".toList <:+: f) ∧ (∃ f ∈ a.files, ¬ "@2x".toList <:+: f) ∧
        (∃ f ∈ a.files, isFor .ipad f = false) ∧ (∃ f ∈ a.files, isFor .iphone f = false) ∧
        (a.files.map Path.basename).Nodup) := by
  have known := files_or_references h
  refine ⟨?_, Asset.findings_eq_nil_iff known⟩
  rw [Asset.findings_eq_of_known known]
  simp only [Asset.toList_missing?, Asset.toList_missingFiles?, Asset.toList_duplicates?]

/-- Two files of one name in two directories, both for the iPad alone and
never mentioned, fail four of the checks. -/
theorem findings_of_two_ipad_files :
    let files := ["a/i~ipad.png".toList, "b/i~ipad.png".toList]
    let a : Asset := ⟨"i".toList, files, []⟩
    a ∈ (ofSightings (files.map fun f => .file (Utf8.encode f))).assets ∧
      a.findings = [.missing .references "a/i~ipad.png".toList,
        .missing .retina "a/i~ipad.png".toList, .missing .iphone "a/i~ipad.png".toList,
        .duplicates files] := by
  intro files a
  have h : a ∈ (ofSightings (files.map fun f => .file (Utf8.encode f))).assets := by decide
  refine ⟨h, ?_⟩
  rw [(findings_of_sightings h).1]
  decide

end Catalogue

end AssetAudit

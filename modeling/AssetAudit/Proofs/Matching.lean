/-
AssetAudit/Proofs/Matching.lean

Files and mentions are matched by bundle name.

Of a survey, an asset is known by its name alone: it has the image files and
the mentions that come to that name, in the order of the survey
(`Survey.assetOf`), and the catalogue holds one such asset for each name that
a file or a mention comes to (`Survey.assets_catalogue`).

Main result: `findings_match_files_and_mentions` says of any audit for which
bundle names it reports that files are missing, for which that mentions are,
and what it says then.
-/
import AssetAudit.Proofs.Checks
import AssetAudit.Proofs.Collection
import Mathlib.Logic.Basic

namespace AssetAudit

/-! ### The assets of a survey -/

namespace Survey

/-- The image files, as text, that come to a bundle name. -/
def filesOf (s : Survey) (b : Text) : List Text :=
  (s.images.map Utf8.decodeLossy).filter (bundleName · = b)

/-- The mentions that come to a bundle name. -/
def mentionsOf (s : Survey) (b : Text) : List SourceMention :=
  s.mentions.filter (bundleName ·.name = b)

/-- What the survey knows under a bundle name. -/
def assetOf (s : Survey) (b : Text) : Asset :=
  ⟨b, s.filesOf b, (s.mentionsOf b).map (·.source)⟩

/-- The bundle names that the files and the mentions come to. -/
def names (s : Survey) : List Text :=
  s.images.map (fun p => bundleName (Utf8.decodeLossy p)) ++
    s.mentions.map fun m => bundleName m.name

theorem map_bundle_sightings (s : Survey) :
    (s.sightings.map Sighting.part).map (·.bundle) = s.names := by
  rw [sightings, names, List.map_append, List.map_append, List.map_map, List.map_map, List.map_map,
    List.map_map]
  rfl

theorem mergedUnder_sightings (s : Survey) (b : Text) :
    mergedUnder b (s.sightings.map Sighting.part) = s.assetOf b := by
  have nothing {α β : Type} (l : List α) : l.flatMap (fun _ => ([] : List β)) = [] :=
    List.flatMap_eq_nil_iff.mpr fun _ _ => rfl
  -- only images bring files, and only mentions bring references
  simp only [mergedUnder, sightings, assetOf, filesOf, mentionsOf, List.map_append, List.map_map,
    List.filter_append, List.filter_map, List.flatMap_append, List.flatMap_map, Function.comp_def,
    Sighting.part, nothing, List.append_nil, List.nil_append]
  rw [← List.map_eq_flatMap, ← List.map_eq_flatMap]

/-- The catalogue of a survey holds one asset for each name, in the order in
which the names were first met. -/
theorem assets_catalogue (s : Survey) : s.catalogue.assets = s.names.eraseDups.map s.assetOf := by
  rw [catalogue_eq_ofSightings, Catalogue.ofSightings_eq_ofParts, Catalogue.assets_ofParts,
    gathered, map_bundle_sightings]
  apply List.map_congr_left
  intro b _
  exact s.mergedUnder_sightings b

theorem mem_names {s : Survey} {b : Text} :
    b ∈ s.names ↔ s.filesOf b ≠ [] ∨ s.mentionsOf b ≠ [] := by
  rw [names, List.mem_append, List.mem_map, List.mem_map, filesOf, mentionsOf]
  simp only [ne_eq, List.filter_eq_nil_iff, List.mem_map, not_forall, decide_eq_true_eq, not_not,
    exists_prop, exists_exists_and_eq_and]

end Survey

/-! ### Findings of one kind -/

namespace Finding

/-- The finding is that no file comes to the bundle name. -/
def isMissingFilesOf (b : Text) : Finding → Bool
  | .missingFiles bundle _ => bundle = b
  | _ => false

/-- The finding is that no mention comes to the bundle name. -/
def isMissingReferencesOf (b : Text) : Finding → Bool
  | .missing .references image => bundleName image = b
  | _ => false

end Finding

namespace Asset

theorem filter_ite_singleton (c : Bool) (f : Finding) (p : Finding → Bool) :
    (if c then [f] else []).filter p = if c && p f then [f] else [] := by
  cases c
  · rfl
  · cases h : p f <;> simp [h]

/-- A known image lacks files at most under its own name. -/
theorem filter_isMissingFilesOf {a : Asset} (known : a.files ≠ [] ∨ a.references ≠ []) (b : Text) :
    a.findings.filter (·.isMissingFilesOf b) =
      if a.lacksFiles && a.bundle = b then [.missingFiles a.bundle a.references] else [] := by
  rw [findings_eq_of_known known]
  simp only [List.filter_append, toList_missing?, toList_missingFiles?, toList_duplicates?,
    filter_ite_singleton, Finding.isMissingFilesOf, Bool.and_false]
  simp

/-- A known image lacks mentions at most under the name of its first file. -/
theorem filter_isMissingReferencesOf {a : Asset} (known : a.files ≠ [] ∨ a.references ≠ [])
    (b : Text) :
    a.findings.filter (·.isMissingReferencesOf b) =
      if a.lacks .references && bundleName a.shownName = b
        then [.missing .references a.shownName] else [] := by
  rw [findings_eq_of_known known]
  simp only [List.filter_append, toList_missing?, toList_missingFiles?, toList_duplicates?,
    filter_ite_singleton, Finding.isMissingReferencesOf, Bool.and_false]
  simp

end Asset

/-! ### Findings under one name -/

/-- Of a list without repeats, only one element counts. -/
theorem flatMap_eq_of_unique {α β : Type} [DecidableEq α] {names : List α} {f : α → List β}
    {b : α} (distinct : names.Nodup) (others : ∀ n ∈ names, n ≠ b → f n = []) :
    names.flatMap f = if b ∈ names then f b else [] := by
  induction names with
  | nil => rfl
  | cons n names ih =>
    obtain ⟨fresh, distinct⟩ := List.nodup_cons.mp distinct
    obtain ⟨here, others⟩ := List.forall_mem_cons.mp others
    rw [List.flatMap_cons, ih distinct others]
    by_cases h : n = b
    · subst h
      rw [if_neg fresh, if_pos (List.mem_cons_self ..), List.append_nil]
    · have h' : ¬ b = n := fun e => h e.symm
      rw [here h, List.nil_append]
      simp only [List.mem_cons, h', false_or]

namespace Survey

/-- What is known under a name of the survey has files or references. -/
theorem known_of_mem_names {s : Survey} {n : Text} (h : n ∈ s.names) :
    (s.assetOf n).files ≠ [] ∨ (s.assetOf n).references ≠ [] := by
  rcases mem_names.mp h with files | mentions
  · exact .inl files
  · exact .inr (mt List.map_eq_nil_iff.mp mentions)

/-- A known image without mentions is shown under its own bundle name. -/
theorem bundleName_shownName {s : Survey} {n : Text} (h : s.filesOf n ≠ []) :
    bundleName (s.assetOf n).shownName = n := by
  obtain ⟨f, files, e⟩ := List.exists_cons_of_ne_nil h
  have first : (s.assetOf n).shownName = f := by
    simp [assetOf, Asset.shownName, Asset.firstFile?, e]
  have mem : f ∈ s.filesOf n := e ▸ List.mem_cons_self ..
  rw [first]
  exact of_decide_eq_true (List.mem_filter.mp mem).2

/-- Findings that only the image of one bundle name can make are made by it. -/
theorem filter_findings {s : Survey} {p : Finding → Bool} {b : Text}
    (others : ∀ n ∈ s.names, n ≠ b → (s.assetOf n).findings.filter p = []) :
    s.catalogue.findings.filter p =
      if b ∈ s.names then (s.assetOf b).findings.filter p else [] := by
  rw [Catalogue.findings, assets_catalogue, List.flatMap_map, List.filter_flatMap,
    flatMap_eq_of_unique (nodup_eraseDups s.names)
      fun n hn => others n (List.mem_eraseDups.mp hn)]
  simp only [List.mem_eraseDups]

/-- Files are missing under a bundle name once, if it is mentioned and no file
comes to it. -/
theorem filter_isMissingFilesOf (s : Survey) (b : Text) :
    s.catalogue.findings.filter (·.isMissingFilesOf b) =
      if s.mentionsOf b ≠ [] ∧ s.filesOf b = []
        then [.missingFiles b ((s.mentionsOf b).map (·.source))] else [] := by
  rw [filter_findings (b := b)]
  · by_cases h : b ∈ s.names
    · rw [if_pos h, Asset.filter_isMissingFilesOf (known_of_mem_names h)]
      by_cases files : s.filesOf b = []
      · have mentions := (mem_names.mp h).resolve_left (not_not_intro files)
        simp [assetOf, Asset.lacksFiles, files, mentions]
      · simp [assetOf, Asset.lacksFiles, files]
    · rw [if_neg h]
      have unknown := mt mem_names.mpr h
      rw [if_neg fun e => unknown (.inr e.1)]
  · -- the image of another name tells of that name
    intro n hn e
    rw [Asset.filter_isMissingFilesOf (known_of_mem_names hn)]
    simp [assetOf, e]

/-- Mentions are missing under a bundle name once, if a file comes to it and
no mention does; it is told of the first of the files. -/
theorem filter_isMissingReferencesOf (s : Survey) (b : Text) :
    s.catalogue.findings.filter (·.isMissingReferencesOf b) =
      if s.mentionsOf b = []
        then (s.filesOf b).head?.toList.map (.missing .references) else [] := by
  rw [filter_findings (b := b)]
  · by_cases h : b ∈ s.names
    · rw [if_pos h, Asset.filter_isMissingReferencesOf (known_of_mem_names h)]
      by_cases mentions : s.mentionsOf b = []
      · have files := (mem_names.mp h).resolve_right (not_not_intro mentions)
        rw [if_pos mentions, bundleName_shownName files]
        obtain ⟨f, fs, e⟩ := List.exists_cons_of_ne_nil files
        simp [assetOf, Asset.lacks, Asset.shownName, Asset.firstFile?, mentions, e]
      · rw [if_neg mentions]
        simp [assetOf, Asset.lacks, mentions]
    · have unknown := mt mem_names.mpr h
      have files : s.filesOf b = [] := Classical.not_not.mp fun e => unknown (.inl e)
      rw [if_neg h, files]
      simp
  · -- the image of another name is shown under that name, if it lacks mentions
    intro n hn e
    rw [Asset.filter_isMissingReferencesOf (known_of_mem_names hn)]
    by_cases mentions : s.mentionsOf n = []
    · have files := (mem_names.mp hn).resolve_right (not_not_intro mentions)
      rw [bundleName_shownName files]
      simp [e]
    · simp [assetOf, Asset.lacks, mentions]

/-! ### Findings by membership -/

theorem mem_missingFiles_iff {s : Survey} {b : Text} {refs : List Bytes} :
    .missingFiles b refs ∈ s.catalogue.findings ↔
      s.mentionsOf b ≠ [] ∧ s.filesOf b = [] ∧ refs = (s.mentionsOf b).map (·.source) := by
  have kind : (Finding.missingFiles b refs).isMissingFilesOf b = true := decide_eq_true rfl
  have kept : .missingFiles b refs ∈ s.catalogue.findings ↔
      .missingFiles b refs ∈ s.catalogue.findings.filter (·.isMissingFilesOf b) := by
    rw [List.mem_filter]
    exact ⟨fun m => ⟨m, kind⟩, And.left⟩
  rw [kept, filter_isMissingFilesOf]
  by_cases h : s.mentionsOf b ≠ [] ∧ s.filesOf b = []
  · rw [if_pos h, List.mem_singleton, Finding.missingFiles.injEq]
    exact ⟨fun e => ⟨h.1, h.2, e.2⟩, fun e => ⟨rfl, e.2.2⟩⟩
  · rw [if_neg h]
    exact ⟨fun m => absurd m List.not_mem_nil, fun e => absurd ⟨e.1, e.2.1⟩ h⟩

theorem mem_missingReferences_iff {s : Survey} {b image : Text} :
    .missing .references image ∈ s.catalogue.findings ∧ bundleName image = b ↔
      (s.filesOf b).head? = some image ∧ s.mentionsOf b = [] := by
  have kept : .missing .references image ∈ s.catalogue.findings ∧ bundleName image = b ↔
      .missing .references image ∈ s.catalogue.findings.filter (·.isMissingReferencesOf b) := by
    rw [List.mem_filter]
    exact and_congr_right fun _ => decide_eq_true_iff.symm
  rw [kept, filter_isMissingReferencesOf]
  by_cases h : s.mentionsOf b = []
  · rw [if_pos h, List.mem_map]
    constructor
    · rintro ⟨f, hf, e⟩
      rw [← (Finding.missing.inj e).2]
      exact ⟨Option.mem_toList.mp hf, h⟩
    · rintro ⟨first, _⟩
      exact ⟨image, Option.mem_toList.mpr first, rfl⟩
  · rw [if_neg h]
    exact ⟨fun m => absurd m List.not_mem_nil, fun e => absurd e.2 h⟩

theorem mentionsOf_eq_nil_iff {s : Survey} {b : Text} :
    s.mentionsOf b = [] ↔ ∀ m ∈ s.mentions, bundleName m.name ≠ b := by
  rw [mentionsOf, List.filter_eq_nil_iff]
  simp only [decide_eq_true_eq, ne_eq]

theorem mentionsOf_ne_nil_iff {s : Survey} {b : Text} :
    s.mentionsOf b ≠ [] ↔ ∃ m ∈ s.mentions, bundleName m.name = b := by
  rw [ne_eq, mentionsOf_eq_nil_iff]
  simp only [not_forall, not_not, exists_prop]

theorem filesOf_eq_nil_iff {s : Survey} {b : Text} :
    s.filesOf b = [] ↔ ∀ p ∈ s.images, bundleName (Utf8.decodeLossy p) ≠ b := by
  rw [filesOf, List.filter_eq_nil_iff, List.forall_mem_map]
  simp only [decide_eq_true_eq, ne_eq]

end Survey

/-! ### Findings of an audit -/

/-- **Files and mentions are matched by bundle name.**  An audit reports that
files are missing under a bundle name exactly if a name in some source comes
to it and no image file does, and lists the sources of all these mentions, in
the order of the scan; it reports that mentions are missing exactly if an
image file comes to it and no mention does, and names the first of these
files.  It reports either once. -/
theorem Walk.findings_match_files_and_mentions {w : Walk} {r : Report} (h : w.audit = .ok r) :
    ∃ c : w.Collection, ∀ b : Text,
      (∀ refs, .missingFiles b refs ∈ r.findings ↔
        (∃ m ∈ c.mentions, bundleName m.name = b) ∧
        (∀ p ∈ c.images, bundleName (Utf8.decodeLossy p) ≠ b) ∧
        refs = (c.mentions.filter (bundleName ·.name = b)).map (·.source)) ∧
      (r.findings.filter (·.isMissingFilesOf b)).length ≤ 1 ∧
      (∀ image, .missing .references image ∈ r.findings ∧ bundleName image = b ↔
        (c.images.map Utf8.decodeLossy).find? (bundleName · = b) = some image ∧
        ∀ m ∈ c.mentions, bundleName m.name ≠ b) ∧
      (r.findings.filter (·.isMissingReferencesOf b)).length ≤ 1 := by
  obtain ⟨c, rfl⟩ := Walk.audit_eq_ok_iff.mp h
  rw [c.toSurvey.findings_report]
  refine ⟨c, ?_⟩
  intro b
  refine ⟨?_, ?_, ?_, ?_⟩
  · intro refs
    rw [Survey.mem_missingFiles_iff, Survey.mentionsOf_ne_nil_iff, Survey.filesOf_eq_nil_iff]
    rfl
  · rw [Survey.filter_isMissingFilesOf]
    split
    · exact Nat.le_refl 1
    · exact Nat.zero_le 1
  · intro image
    rw [Survey.mem_missingReferences_iff, Survey.mentionsOf_eq_nil_iff, Survey.filesOf,
      List.head?_filter]
    rfl
  · rw [Survey.filter_isMissingReferencesOf]
    split
    · rw [List.length_map]
      exact Option.length_toList_le
    · exact Nat.zero_le 1

/-- A project whose sources mention an image that is not there, under two of
its names, and whose only image is mentioned nowhere. -/
def ghostProject : Walk where
  fs := {
    top := [.directory (Utf8.encode "p".toList) [
      .file (Utf8.encode "B.mm".toList) (Utf8.encode "imageNamed:@\"ghost@2x.png\"".toList),
      .file (Utf8.encode "A.m".toList) (Utf8.encode "imageNamed:@\"ghost\"".toList),
      .file (Utf8.encode "logo.png".toList) []]]
    workingDirectory := [Utf8.encode "p".toList] }
  exclusion := .standard
  root := Utf8.encode ".".toList

theorem findings_match_on_ghostProject :
    let ghost : Finding := .missingFiles "ghost".toList
      [Utf8.encode "A.m".toList, Utf8.encode "B.mm".toList]
    let logo : Finding := .missing .references "logo.png".toList
    let r : Report :=
      ⟨[logo, .missing .retina "logo.png".toList, ghost], ⟨1, 2, 2, 2, 3⟩⟩
    ghostProject.audit = .ok r ∧ ∃ c : ghostProject.Collection,
      (∀ p ∈ c.images, bundleName (Utf8.decodeLossy p) ≠ "ghost".toList) ∧
      ∀ m ∈ c.mentions, bundleName m.name ≠ "logo".toList := by
  intro ghost logo r
  have audit : ghostProject.audit = .ok r := by rfl
  obtain ⟨c, matched⟩ := Walk.findings_match_files_and_mentions audit
  obtain ⟨missing, _, _, _⟩ := matched "ghost".toList
  obtain ⟨_, _, unmentioned, _⟩ := matched "logo".toList
  have here : ghost ∈ r.findings := by decide
  have there : logo ∈ r.findings ∧ bundleName "logo.png".toList = "logo".toList := by decide
  exact ⟨audit, c, ((missing _).mp here).2.1, ((unmentioned _).mp there).2⟩

end AssetAudit

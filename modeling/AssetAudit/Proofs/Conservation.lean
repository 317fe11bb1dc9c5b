/-
AssetAudit/Proofs/Conservation.lean

Nothing is lost between a walk and the catalogue.

A survey counts what it comes across, and the catalogue gathers the same things
by bundle name.  Whatever is gathered is in one group and only there, so the
sizes of the groups add up to the length of what was gathered
(`sum_length_filter`), and the totals of a survey are those of its catalogue.

Gathering keeps the order.  The image files come in the order of their
locations (`Walk.imageFiles_ascending`), so the files of an asset do, and the
one it is named after is the first of them.

Main result: `Walk.collection_is_conserved`.
-/
import AssetAudit.Proofs.Descending
import AssetAudit.Proofs.Matching
import AssetAudit.Proofs.Selection
import Mathlib.Algebra.BigOperators.Group.List.Lemmas
import Mathlib.Algebra.GroupWithZero.Nat

namespace AssetAudit

/-! ### Sizes of groups -/

/-- Where each element has its key among the names, the groups by key are
together as long as the list. -/
theorem sum_length_filter {α κ : Type} [DecidableEq κ] (key : α → κ) {names : List κ}
    (distinct : names.Nodup) {xs : List α} (known : ∀ x ∈ xs, key x ∈ names) :
    (names.map fun b => (xs.filter (key · = b)).length).sum = xs.length := by
  induction xs with
  | nil => simp
  | cons x xs ih =>
    obtain ⟨here, later⟩ := List.forall_mem_cons.mp known
    -- the first element adds one to the group of its key, and nothing to any other
    have one : (names.map fun b => if key x = b then 1 else 0).sum = 1 := by
      rw [List.sum_map_eq_nsmul_single (key x) _ fun b other _ => if_neg other.symm, if_pos rfl]
      exact (Nat.mul_one _).trans (List.count_eq_one_of_mem distinct here)
    have grows (b : κ) : ((x :: xs).filter (key · = b)).length =
        (if key x = b then 1 else 0) + (xs.filter (key · = b)).length := by
      by_cases h : key x = b
      · simp [h, Nat.add_comm]
      · simp [h]
    simp only [grows]
    rw [List.sum_map_add, one, ih later, List.length_cons, Nat.add_comm]

namespace Survey

/-- The files of all assets are as many as the image files. -/
theorem sum_length_files (s : Survey) :
    (s.catalogue.assets.map (·.files.length)).sum = s.images.length := by
  have known : ∀ f ∈ s.images.map Utf8.decodeLossy, bundleName f ∈ s.names.eraseDups := by
    intro f hf
    obtain ⟨p, hp, rfl⟩ := List.mem_map.mp hf
    rw [List.mem_eraseDups, names, List.mem_append]
    exact .inl (List.mem_map_of_mem hp)
  have sum := sum_length_filter bundleName (nodup_eraseDups s.names) known
  rw [List.length_map] at sum
  rw [assets_catalogue, List.map_map, ← sum]
  rfl

/-- The references of all assets are as many as the mentions. -/
theorem sum_length_references (s : Survey) :
    (s.catalogue.assets.map (·.references.length)).sum = s.mentions.length := by
  have known : ∀ m ∈ s.mentions, bundleName m.name ∈ s.names.eraseDups := by
    intro m hm
    rw [List.mem_eraseDups, names, List.mem_append]
    exact .inr (List.mem_map_of_mem hm)
  rw [assets_catalogue, List.map_map,
    ← sum_length_filter (bundleName ·.name) (nodup_eraseDups s.names) known]
  congr 1
  apply List.map_congr_left
  intro b _
  exact List.length_map _

end Survey

/-! ### The order of image files -/

namespace Walk

variable {w : Walk}

/-- The image files are in ascending order, compared segment by segment. -/
theorem imageFiles_ascending {images : List Bytes} (tree : IsTree w.fs.top)
    (h : w.imageFiles = .ok images) :
    images.Pairwise fun p q => Path.segments p < Path.segments q := by
  obtain ⟨found, selected, rfl⟩ := Except.map_eq_ok_iff.mp h
  cases place : w.fs.lookup .follow w.root with
  | error cause =>
    rw [select, Walk.found, place] at selected
    cases selected
  | ok p =>
    cases p with
    | directory here listing =>
      obtain ⟨ls, rfl, mem, sorted⟩ := exists_of_select tree place selected
      -- the segments of what is seen from the root are the location
      have seen : ∀ l ∈ ls, Path.segments (Path.seenFrom w.root (foundOf w.root l).path) = l := by
        intro l hl
        obtain ⟨⟨_, k, there, _⟩, _⟩ := (mem l).mp hl
        have below := isTree_of_lookup tree place
        cases l with
        | nil => cases there
        | cons n l =>
          show Path.segments (Path.seenFrom w.root (Path.joinAll w.root _)) = _
          rw [FileSystem.seenFrom_joinAll below place there,
            Path.segments_intercalate (below.isEntryName_of_kindBelow? there)]
      rw [List.map_map, List.pairwise_map]
      apply sorted.imp_of_mem
      intro l m hl hm lt
      show Path.segments (Path.seenFrom _ _) < Path.segments (Path.seenFrom _ _)
      rw [seen l hl, seen m hm]
      exact lt
    | _ =>
      -- the root itself is found, and nothing else
      rw [select, Walk.found, place] at selected
      obtain ⟨_, e, rfl⟩ := Except.map_eq_ok_iff.mp selected
      cases e
      apply List.Pairwise.map _ (R := fun _ _ => False) (fun _ _ => False.elim)
      exact (List.pairwise_singleton _ _).filter _

/-- **Nothing is lost between a walk and the catalogue.**  The files of all
images are the image files found, and their references are the names that the
sources mention, each counted as often as it was met; every image has a file
or a reference, and files that come to its name.  Its files keep the order of
the walk, so the first of them is the one whose location comes first. -/
theorem collection_is_conserved {s : Survey} (tree : IsTree w.fs.top) (h : w.survey = .ok s) :
    ∃ c : w.Collection, s = c.toSurvey ∧
      (s.catalogue.assets.map (·.files.length)).sum = s.totals.imageFiles ∧
      s.totals.imageFiles = c.images.length ∧
      (s.catalogue.assets.map (·.references.length)).sum = s.totals.references ∧
      s.totals.references = (SourceFormat.all.map fun format => ((c.sources format).map fun file =>
        (format.mentions (sourceText (c.contents file))).length).sum).sum ∧
      s.totals.bundles = s.catalogue.assets.length ∧
      (c.images.Pairwise fun p q => Path.segments p < Path.segments q) ∧
      ∀ a ∈ s.catalogue.assets,
        (a.files ≠ [] ∨ a.references ≠ []) ∧
        (∀ f ∈ a.files, bundleName f = a.bundle) ∧
        ∃ own : List Bytes, own.Sublist c.images ∧ a.files = own.map Utf8.decodeLossy ∧
          ∀ first, own.head? = some first →
            a.firstFile? = some (Utf8.decodeLossy first) ∧
            ∀ p ∈ own, Path.segments first ≤ Path.segments p := by
  obtain ⟨c, rfl⟩ := survey_eq_ok_iff.mp h
  have ascending := imageFiles_ascending tree c.images_found
  rw [c.toSurvey.totals_eq]
  refine ⟨c, rfl, c.toSurvey.sum_length_files, rfl, c.toSurvey.sum_length_references, ?_,
    c.toSurvey.catalogue.size_eq, ascending, ?_⟩
  · -- format by format and source by source
    show c.mentions.length = _
    simp only [Collection.mentions, List.length_flatMap, Collection.mentionsOf, List.length_map]
  · intro a ha
    obtain ⟨b, hb, rfl⟩ := List.mem_map.mp (Survey.assets_catalogue _ ▸ ha)
    refine ⟨Survey.known_of_mem_names (List.mem_eraseDups.mp hb), ?_, ?_⟩
    · intro f hf
      exact of_decide_eq_true (List.mem_filter.mp hf).2
    · let own := c.images.filter fun p => bundleName (Utf8.decodeLossy p) = b
      refine ⟨own, List.filter_sublist, List.filter_map, ?_⟩
      intro first h
      obtain ⟨later, e⟩ := List.head?_eq_some_iff.mp h
      have sorted : own.Pairwise _ := ascending.filter _
      rw [e, List.pairwise_cons] at sorted
      constructor
      · show (List.filter _ (c.images.map _)).head? = _
        rw [List.filter_map, List.head?_map]
        exact congrArg _ h
      · rw [e, List.forall_mem_cons]
        exact ⟨List.le_refl _, fun p hp => List.le_of_lt (sorted.1 p hp)⟩

end Walk

/-- A project with two files of one image, in two directories, and a source
that mentions the image twice. -/
def iconProject : Walk where
  fs := {
    top := [.directory (Utf8.encode "p".toList) [
      .directory (Utf8.encode "small".toList) [.file (Utf8.encode "icon.png".toList) []],
      .file (Utf8.encode "A.m".toList)
        (Utf8.encode "[imageNamed:@\"icon\"] [imageNamed:@\"icon@2x.png\"]".toList),
      .directory (Utf8.encode "large".toList) [.file (Utf8.encode "icon@2x.png".toList) []]]]
    workingDirectory := [Utf8.encode "p".toList] }
  exclusion := .standard
  root := Utf8.encode "./".toList

theorem conservation_on_iconProject :
    IsTree iconProject.fs.top ∧ ∃ s, iconProject.survey = .ok s ∧ s.totals = ⟨2, 1, 2, 1, 0⟩ ∧
      (s.catalogue.assets.map (·.files.length)).sum = 2 ∧
      (s.catalogue.assets.map (·.references.length)).sum = 2 ∧
      ∀ a ∈ s.catalogue.assets, ∀ f ∈ a.files, bundleName f = a.bundle := by
  have tree : IsTree iconProject.fs.top := by decide
  have totals : iconProject.survey.map Survey.totals = .ok ⟨2, 1, 2, 1, 0⟩ := by rfl
  obtain ⟨s, survey, counted⟩ := Except.map_eq_ok_iff.mp totals
  obtain ⟨_, _, files, _, references, _, _, _, each⟩ := Walk.collection_is_conserved tree survey
  rw [counted] at files references
  exact ⟨tree, s, survey, counted, files, references, fun a ha => (each a ha).2.1⟩

end AssetAudit

/-
AssetAudit/Proofs/Collection.lean

What a survey rests on.

A survey succeeds exactly where its parts do: the walk for images, the walk
for the sources of each format, and the reading of each of these sources.  A
`Collection` is what they all come to, and `survey_eq_ok_iff` says that a
survey is nothing but a collection written down.  So an audit reports on a
collection (`Walk.audit_eq_ok_iff`).

The catalogue of a survey is one of sightings, first the image files and then
the mentions, in the order in which the project is gone through
(`catalogue_eq_ofSightings`).
-/
import AssetAudit.Proofs.Counting
import AssetAudit.Proofs.Operations
import Mathlib.Tactic.Choose

namespace AssetAudit

/-- What is collected in a project: its image files, the sources of each
format, and what the sources hold. -/
structure Walk.Collection (w : Walk) where
  /-- The image files, as seen from the root, in the order of the walk. -/
  images : List Bytes
  /-- The sources of a format, in the order of the walk. -/
  sources : SourceFormat → List Bytes
  /-- What a source holds. -/
  contents : Bytes → Bytes
  images_found : w.imageFiles = .ok images
  sources_found : ∀ format, w.sourceFiles format = .ok (sources format)
  contents_read : ∀ format, ∀ file ∈ sources format, w.fs.readFile file = .ok (contents file)

namespace Walk.Collection

variable {w : Walk}

/-- What the source of a format at `file` mentions, in the order of its
text. -/
def mentionsOf (c : w.Collection) (format : SourceFormat) (file : Bytes) : List SourceMention :=
  (format.mentions (sourceText (c.contents file))).map
    fun name => ⟨name, Path.seenFrom w.root file, format⟩

/-- All that is mentioned: format by format, source by source, and in the
order of each text. -/
def mentions (c : w.Collection) : List SourceMention :=
  SourceFormat.all.flatMap fun format => (c.sources format).flatMap (c.mentionsOf format)

/-- The collection as a survey. -/
def toSurvey (c : w.Collection) : Survey where
  images := c.images
  sources := SourceFormat.all.flatMap c.sources
  mentions := c.mentions

theorem mentionsIn_eq (c : w.Collection) {format : SourceFormat} {file : Bytes}
    (h : file ∈ c.sources format) :
    mentionsIn w.fs w.root file format = .ok (c.mentionsOf format file) := by
  rw [mentionsIn, c.contents_read format file h]
  rfl

theorem surveyFormat_eq (c : w.Collection) (format : SourceFormat) :
    w.surveyFormat format =
      .ok (c.sources format, (c.sources format).flatMap (c.mentionsOf format)) := by
  have each := mapM_eq_ok_of_forall fun file (h : file ∈ c.sources format) => c.mentionsIn_eq h
  rw [surveyFormat, c.sources_found, Except.ok_bind, each, List.flatMap_def]
  rfl

/-- A collection is a survey that succeeds. -/
theorem survey_eq (c : w.Collection) : w.survey = .ok c.toSurvey := by
  have each := mapM_eq_ok_of_forall fun format (_ : format ∈ SourceFormat.all) =>
    c.surveyFormat_eq format
  rw [survey, c.images_found, Except.ok_bind, each]
  rfl

end Walk.Collection

/-- The sources of a format that was surveyed were found and could be read. -/
theorem Walk.sources_of_surveyFormat {w : Walk} {format : SourceFormat}
    {r : List Bytes × List SourceMention} (h : w.surveyFormat format = .ok r) :
    ∃ files, w.sourceFiles format = .ok files ∧
      ∀ file ∈ files, ∃ contents, w.fs.readFile file = .ok contents := by
  obtain ⟨files, found, h⟩ := Except.bind_eq_ok_iff.mp h
  obtain ⟨ms, read, _⟩ := Except.bind_eq_ok_iff.mp h
  obtain ⟨_, each, _⟩ := exists_of_mapM_eq_ok read
  refine ⟨files, found, ?_⟩
  intro file hfile
  have here := each file hfile
  rw [mentionsIn] at here
  split at here
  · cases here
  · rename_i contents e
    exact ⟨contents, e⟩

/-- **A survey is a collection written down.**  It succeeds exactly if the
images and the sources are found and the sources can be read. -/
theorem Walk.survey_eq_ok_iff {w : Walk} {s : Survey} :
    w.survey = .ok s ↔ ∃ c : w.Collection, s = c.toSurvey := by
  constructor
  · intro h
    obtain ⟨images, found, parts⟩ := Except.bind_eq_ok_iff.mp h
    obtain ⟨_, surveyed, _⟩ := Except.bind_eq_ok_iff.mp parts
    obtain ⟨_, each, _⟩ := exists_of_mapM_eq_ok surveyed
    have sources (format : SourceFormat) :=
      sources_of_surveyFormat (each format (SourceFormat.mem_all format))
    choose files sources_found readable using sources
    -- what no source holds does not matter
    let c : w.Collection := {
      images := images
      sources := files
      contents := fun file => (w.fs.readFile file).toOption.getD []
      images_found := found
      sources_found := sources_found
      contents_read := by
        intro format file hfile
        obtain ⟨contents, e⟩ := readable format file hfile
        rw [e]
        rfl }
    refine ⟨c, ?_⟩
    rw [c.survey_eq] at h
    exact (Except.ok.inj h).symm
  · rintro ⟨c, rfl⟩
    exact c.survey_eq

/-- An audit is the report on a collection. -/
theorem Walk.audit_eq_ok_iff {w : Walk} {r : Report} :
    w.audit = .ok r ↔ ∃ c : w.Collection, r = c.toSurvey.report := by
  rw [audit_eq, Except.map_eq_ok_iff]
  constructor
  · rintro ⟨s, surveyed, rfl⟩
    obtain ⟨c, rfl⟩ := survey_eq_ok_iff.mp surveyed
    exact ⟨c, rfl⟩
  · rintro ⟨c, rfl⟩
    exact ⟨_, c.survey_eq, rfl⟩

/-! ### The catalogue -/

/-- What a survey came across: first the image files, then the mentions. -/
def Survey.sightings (s : Survey) : List Sighting :=
  s.images.map .file ++ s.mentions.map fun m => .mention m.name m.source

theorem Survey.catalogue_eq_ofSightings (s : Survey) :
    s.catalogue = Catalogue.ofSightings s.sightings := by
  rw [catalogue, sightings, Catalogue.ofSightings, List.foldl_append, List.foldl_map,
    List.foldl_map]
  rfl

end AssetAudit

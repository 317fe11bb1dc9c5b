/-
AssetAudit/Proofs/Counting.lean

What an audit has counted when it has met everything.

An audit adds what it meets to the catalogue and counts it in the same step.  By
definition a step adds one to one of the counts; so a run of steps adds as many as
there are things, and leaves the catalogue of these things (`foldl_addFile`,
`foldl_addSource`, `foldl_addMention`).  `Progress.behind` is where sources and
their mentions lead to, however they come one between the other.

So it makes no difference whether a project is gone through once, or surveyed
first and gone through then (`Walk.collect_eq`), and the counts are the lengths of
what the survey found (`Survey.totals_eq`).
-/
import AssetAudit.Audit.Report
import AssetAudit.Proofs.Outcomes

namespace AssetAudit

/-! ### Runs of steps -/

namespace Progress

/-- The progress once so many more sources have been met, and these mentions. -/
def behind (p : Progress) (sources : Nat) (ms : List SourceMention) : Progress where
  catalogue := ms.foldl (fun c m => c.addMention m.name m.source) p.catalogue
  totals := { p.totals with
    sources := p.totals.sources + sources
    references := p.totals.references + ms.length }

variable (p : Progress) (n : Nat) (ms : List SourceMention)

theorem behind_addSource : (p.behind n ms).addSource = p.behind (n + 1) ms := rfl

theorem behind_addMention (m : SourceMention) :
    (p.behind n ms).addMention m = p.behind n (ms ++ [m]) := by
  rw [behind, behind, addMention, List.foldl_append, List.length_append]
  rfl

/-- Each image file is added and counted. -/
theorem foldl_addFile (files : List Bytes) : files.foldl addFile p =
    { catalogue := files.foldl Catalogue.addFile p.catalogue
      totals := { p.totals with imageFiles := p.totals.imageFiles + files.length } } := by
  induction files generalizing p with
  | nil => rfl
  | cons f files ih =>
    rw [List.foldl_cons, ih, List.foldl_cons, List.length_cons, Nat.add_comm files.length,
      ← Nat.add_assoc]
    rfl

/-- Each source is counted. -/
theorem foldl_addSource (sources : List Bytes) :
    sources.foldl (fun p _ => p.addSource) (p.behind n ms) = p.behind (n + sources.length) ms := by
  induction sources generalizing n with
  | nil => rfl
  | cons f sources ih =>
    rw [List.foldl_cons, behind_addSource, ih, List.length_cons, Nat.add_right_comm, Nat.add_assoc]

/-- Each mention is added and counted. -/
theorem foldl_addMention (more : List SourceMention) :
    more.foldl addMention (p.behind n ms) = p.behind n (ms ++ more) := by
  induction more generalizing ms with
  | nil => rw [List.foldl_nil, List.append_nil]
  | cons m more ih =>
    rw [List.foldl_cons, behind_addMention, ih, List.append_assoc, List.singleton_append]

/-- One source after the other, each with its mentions behind it. -/
theorem foldl_sources (parts : List (List SourceMention)) :
    parts.foldl (fun p part => part.foldl addMention p.addSource) (p.behind n ms) =
      p.behind (n + parts.length) (ms ++ parts.flatten) := by
  induction parts generalizing n ms with
  | nil => rw [List.foldl_nil, List.flatten_nil, List.append_nil, List.length_nil, Nat.add_zero]
  | cons part parts ih =>
    rw [List.foldl_cons, behind_addSource, foldl_addMention, ih, List.flatten_cons,
      List.append_assoc, List.length_cons, Nat.add_right_comm, Nat.add_assoc]

/-- One format after the other, each with its sources and their mentions. -/
theorem foldl_formats (parts : List (List Bytes × List SourceMention)) :
    parts.foldl (fun p part => p.behind part.1.length part.2) (p.behind n ms) =
      p.behind (n + (parts.flatMap (·.1)).length) (ms ++ parts.flatMap (·.2)) := by
  have twice (part : List Bytes × List SourceMention) (n : Nat) (ms : List SourceMention) :
      (p.behind n ms).behind part.1.length part.2 =
        p.behind (n + part.1.length) (ms ++ part.2) := by
    simp only [behind, List.foldl_append, List.length_append, Nat.add_assoc]
  induction parts generalizing n ms with
  | nil => rw [List.foldl_nil, List.flatMap_nil, List.flatMap_nil, List.append_nil]; rfl
  | cons part parts ih =>
    rw [List.foldl_cons, twice, ih, List.flatMap_cons, List.flatMap_cons, List.length_append,
      List.append_assoc, Nat.add_assoc]

end Progress

/-! ### Surveys that are gone through -/

namespace Survey

variable (s : Survey)

theorem progress_eq_behind : s.progress =
    ((s.images.foldl Progress.addFile {}).behind s.sources.length s.mentions).close := by
  let files : Progress := s.images.foldl Progress.addFile {}
  have sources : s.sources.foldl (fun p _ => p.addSource) files =
      files.behind s.sources.length [] := by
    refine (Progress.foldl_addSource files 0 [] s.sources).trans ?_
    rw [Nat.zero_add]
  show (s.mentions.foldl Progress.addMention (s.sources.foldl _ files)).close = _
  rw [sources, Progress.foldl_addMention, List.nil_append]

theorem progress_eq : s.progress =
    { catalogue := s.catalogue
      totals := ⟨s.images.length, s.sources.length, s.mentions.length, s.catalogue.size, 0⟩ } := by
  rw [progress_eq_behind, Progress.foldl_addFile, Progress.behind, Progress.close]
  simp only [Nat.zero_add]
  rfl

/-- **What was counted is what was found.** -/
theorem totals_eq : s.totals =
    ⟨s.images.length, s.sources.length, s.mentions.length, s.catalogue.size, 0⟩ := by
  rw [totals, progress_eq]

theorem report_eq : s.report =
    ⟨s.catalogue.findings, { s.totals with findings := s.catalogue.findings.length }⟩ := by
  rw [report, totals, progress_eq]
  rfl

theorem findings_report : s.report.findings = s.catalogue.findings := by
  rw [report_eq]

end Survey

/-! ### Projects that are gone through -/

namespace Walk

variable (w : Walk)

/-- The sources of a format are met as they are surveyed. -/
theorem collectFormat_eq (p : Progress) (format : SourceFormat) :
    w.collectFormat p format = (w.surveyFormat format).map fun r => p.behind r.1.length r.2 := by
  rw [collectFormat, surveyFormat]
  cases w.sourceFiles format with
  | error e => rfl
  | ok files =>
    rw [Except.ok_bind, Except.ok_bind]
    have each : ∀ p file, w.collectSource format p file =
        (mentionsIn w.fs w.root file format).map fun part =>
          part.foldl .addMention p.addSource := by
      intro p file
      rw [collectSource]
      cases mentionsIn w.fs w.root file format <;> rfl
    rw [foldlM_eq_map_mapM each]
    cases read : files.mapM fun file => mentionsIn w.fs w.root file format with
    | error e => rfl
    | ok parts =>
      obtain ⟨mentions, _, rfl⟩ := exists_of_mapM_eq_ok read
      have run := Progress.foldl_sources p 0 [] (files.map mentions)
      rw [List.length_map, Nat.zero_add, List.nil_append] at run
      exact congrArg Except.ok run

/-- **To go through a project once is to survey it, and to go through the
survey.**  Both fail alike. -/
theorem collect_eq : w.collect = w.survey.map Survey.progress := by
  rw [collect, survey]
  cases w.imageFiles with
  | error e => rfl
  | ok images =>
    rw [Except.ok_bind, Except.ok_bind, foldlM_eq_map_mapM w.collectFormat_eq]
    cases SourceFormat.all.mapM w.surveyFormat with
    | error e => rfl
    | ok parts =>
      have run := Progress.foldl_formats (images.foldl Progress.addFile {}) 0 [] parts
      rw [Nat.zero_add, List.nil_append] at run
      refine congrArg Except.ok ((congrArg Progress.close run).trans ?_)
      exact (Survey.progress_eq_behind ⟨images, _, _⟩).symm

/-- An audit reports on a survey. -/
theorem audit_eq : w.audit = w.survey.map Survey.report := by
  rw [audit, collect_eq]
  cases w.survey <;> rfl

end Walk

end AssetAudit

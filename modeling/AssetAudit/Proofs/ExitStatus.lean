/-
AssetAudit/Proofs/ExitStatus.lean

The status a run ends with, in either form of the report.

A run that writes text ends with status 0 exactly if the audit comes to a
report.  One that writes JSON also has to write every path in the report, and
the sources of mentions without a file are the only paths there that need not
be UTF-8 (`Survey.exists_toJson_iff`).  So the two ends differ where such a
source is not, and nowhere else: `status_of_json`.
-/
import AssetAudit.Proofs.Matching
import AssetAudit.Proofs.Reading
import AssetAudit.Proofs.Running

namespace AssetAudit

/-! ### Reports with a JSON form -/

theorem exists_pathJson_iff {p : Bytes} :
    (∃ j, pathJson p = .ok j) ↔ (Utf8.decode? p).isSome = true := by
  rw [pathJson]
  cases Utf8.decode? p with
  | none => exact iff_of_false nofun Bool.false_ne_true
  | some t => exact iff_of_true ⟨_, rfl⟩ rfl

/-- Only the sources in a finding can keep it from having a JSON form. -/
theorem Finding.exists_toJson_iff {f : Finding} :
    (∃ j, f.toJson = .ok j) ↔
      ∀ bundle refs, f = .missingFiles bundle refs → ∀ p ∈ refs, (Utf8.decode? p).isSome = true := by
  cases f with
  | missingFiles bundle refs =>
    have paths : (∃ js, refs.mapM pathJson = .ok js) ↔
        ∀ p ∈ refs, (Utf8.decode? p).isSome = true := by
      rw [exists_mapM_eq_ok_iff]
      exact forall₂_congr fun _ _ => exists_pathJson_iff
    constructor
    · rintro ⟨j, h⟩ _ _ ⟨⟩
      obtain ⟨js, written, _⟩ := Except.bind_eq_ok_iff.mp h
      exact paths.mp ⟨js, written⟩
    · intro h
      obtain ⟨js, written⟩ := paths.mpr (h bundle refs rfl)
      rw [toJson, written]
      exact ⟨_, rfl⟩
  | missing part image => exact iff_of_true ⟨_, rfl⟩ nofun
  | duplicates files => exact iff_of_true ⟨_, rfl⟩ nofun

theorem Report.exists_toJson_iff {r : Report} :
    (∃ j, r.toJson = .ok j) ↔ ∀ f ∈ r.findings, ∃ j, f.toJson = .ok j := by
  rw [← exists_mapM_eq_ok_iff, toJson, findingsJson]
  cases r.findings.mapM Finding.toJson with
  | error e => exact iff_of_false nofun nofun
  | ok js => exact iff_of_true ⟨_, rfl⟩ ⟨_, rfl⟩

/-- The report on a survey has a JSON form exactly if every mention without a
file stands in a source whose path is UTF-8. -/
theorem Survey.exists_toJson_iff (s : Survey) :
    (∃ j, s.report.toJson = .ok j) ↔
      ∀ m ∈ s.mentions, (Utf8.decode? m.source).isSome = true ∨
        ∃ p ∈ s.images, bundleName (Utf8.decodeLossy p) = bundleName m.name := by
  rw [Report.exists_toJson_iff, findings_report]
  constructor
  · intro h m hm
    by_cases files : s.filesOf (bundleName m.name) = []
    · left
      have missing := mem_missingFiles_iff.mpr
        ⟨mentionsOf_ne_nil_iff.mpr ⟨m, hm, rfl⟩, files, rfl⟩
      refine Finding.exists_toJson_iff.mp (h _ missing) _ _ rfl m.source ?_
      exact List.mem_map_of_mem (List.mem_filter.mpr ⟨hm, decide_eq_true rfl⟩)
    · right
      rw [filesOf_eq_nil_iff] at files
      simpa using files
  · intro h f hf
    rw [Finding.exists_toJson_iff]
    rintro b refs rfl p hp
    obtain ⟨_, files, rfl⟩ := mem_missingFiles_iff.mp hf
    obtain ⟨m, hm, rfl⟩ := List.mem_map.mp hp
    obtain ⟨mentioned, name⟩ := List.mem_filter.mp hm
    obtain rfl := of_decide_eq_true name
    -- no file comes to the name, so the path of the source has to be UTF-8
    rcases h m mentioned with text | ⟨p, hp, same⟩
    · exact text
    · exact absurd same (filesOf_eq_nil_iff.mp files p hp)

namespace CommandLine

variable {fs : FileSystem} {colour : Bool} {s : Settings}

/-! ### Status -/

theorem status_text_iff (text : s.json = false) :
    ((Request.audit s).run fs colour).status = 0 ↔ ∃ r, s.report fs = .ok r := by
  cases h : s.report fs with
  | error f =>
    rw [run_audit_of_error h]
    exact iff_of_false nofun nofun
  | ok r =>
    rw [run_audit_text h text]
    exact iff_of_true rfl ⟨r, rfl⟩

theorem status_json_iff (json : s.json = true) :
    ((Request.audit s).run fs colour).status = 0 ↔
      ∃ r, s.report fs = .ok r ∧ ∃ j, r.toJson = .ok j := by
  cases h : s.report fs with
  | error f =>
    rw [run_audit_of_error h]
    exact iff_of_false nofun nofun
  | ok r =>
    cases form : r.toJson with
    | ok j =>
      rw [run_audit_json h json form]
      exact iff_of_true rfl ⟨r, rfl, j, form⟩
    | error e =>
      rw [run_audit_not_json h json form]
      refine iff_of_false nofun ?_
      rintro ⟨_, ⟨⟩, j, e⟩
      rw [form] at e
      cases e

/-- The report on a collection is that of its survey. -/
theorem report_of_collection {w : Walk} (walk : s.walk fs = .ok w) (c : w.Collection) :
    s.report fs = .ok c.toSurvey.report :=
  Settings.report_eq_ok_iff.mpr ⟨w, walk, Walk.audit_eq_ok_iff.mpr ⟨c, rfl⟩⟩

/-- **The form of the report decides the status only where a path cannot be
written.**  Words that ask for an audit in text can be read as asking for it in
JSON, say with `--json` in front.  In text the run ends with status 0 exactly
if the audit comes to a report.  In JSON it does so exactly if it does in text,
and every mention without an image file stands in a source whose path, as seen
from the root, is UTF-8. -/
theorem status_of_json {words : List Bytes} (audit : Request.ofWords words = .ok (.audit s))
    (text : s.json = false) :
    Request.ofWords (bytesOf "--json" :: words) = .ok (.audit { s with json := true }) ∧
    ((runWords fs colour words).status = 0 ↔ ∃ w r, s.walk fs = .ok w ∧ w.audit = .ok r) ∧
    ∀ words', Request.ofWords words' = .ok (.audit { s with json := true }) →
      ((runWords fs colour words').status = 0 ↔ (runWords fs colour words).status = 0 ∧
        ∀ w (c : w.Collection), s.walk fs = .ok w → ∀ m ∈ c.mentions,
          (Utf8.decode? m.source).isSome = true ∨
            ∃ p ∈ c.images, bundleName (Utf8.decodeLossy p) = bundleName m.name) := by
  have asText : runWords fs colour words = (Request.audit s).run fs colour :=
    runWords_of_ofWords audit
  refine ⟨Request.ofWords_cons_flag (f := .json) audit text rfl, ?_, ?_⟩
  · rw [asText, status_text_iff text]
    simp only [Settings.report_eq_ok_iff]
    exact exists_comm
  intro words' asked
  -- the form does not matter to the audit itself
  have same : ({ s with json := true } : Settings).report fs = s.report fs := rfl
  rw [asText, runWords_of_ofWords asked, status_text_iff text, status_json_iff rfl, same]
  constructor
  · rintro ⟨r, report, form⟩
    refine ⟨⟨r, report⟩, ?_⟩
    intro w c walk
    rw [report_of_collection walk c] at report
    cases report
    exact (Survey.exists_toJson_iff _).mp form
  · rintro ⟨⟨r, report⟩, free⟩
    refine ⟨r, report, ?_⟩
    obtain ⟨w, walk, ok⟩ := Settings.report_eq_ok_iff.mp report
    obtain ⟨c, rfl⟩ := Walk.audit_eq_ok_iff.mp ok
    exact (Survey.exists_toJson_iff _).mpr (free w c walk)

/-- A source file whose name is not UTF-8. -/
def namelessSource : Bytes :=
  0xFF :: Utf8.encode ".m".toList

/-- A project in which this source mentions `logo`, and whose one image is
called `image`. -/
def logoProject (image : Text) : FileSystem where
  top := [.directory (Utf8.encode "p".toList) [
    .file namelessSource (Utf8.encode "imageNamed:@\"logo\"".toList),
    .file (Utf8.encode (image ++ ".png".toList)) []]]
  workingDirectory := [Utf8.encode "p".toList]

theorem status_of_json_on_logoProject :
    let fs := logoProject "logo".toList
    (run fs false []).status = 0 ∧ (run fs false ["--json".toList]).status = 0 := by
  intro fs
  let logo : Survey := {
    images := [Utf8.encode "logo.png".toList]
    sources := [Utf8.encode "./".toList ++ namelessSource]
    mentions := [⟨"logo".toList, namelessSource, .objectiveC⟩] }
  obtain ⟨w, walk, surveyed⟩ : ∃ w, ({} : Settings).walk fs = .ok w ∧ w.survey = .ok logo :=
    ⟨_, rfl, rfl⟩
  obtain ⟨c, _⟩ := Walk.survey_eq_ok_iff.mp surveyed
  obtain ⟨asked, text, json⟩ := @status_of_json fs false {} [] rfl rfl
  have ends : (run fs false []).status = 0 :=
    text.mpr ⟨w, _, walk, Walk.audit_eq_ok_iff.mpr ⟨c, rfl⟩⟩
  refine ⟨ends, (json _ asked).mpr ⟨ends, ?_⟩⟩
  intro w' c' walk'
  obtain rfl : w = w' := Except.ok.inj (walk.symm.trans walk')
  have same : c'.toSurvey = logo := Except.ok.inj (c'.survey_eq.symm.trans surveyed)
  have matched : ∀ m ∈ logo.mentions, (Utf8.decode? m.source).isSome = true ∨
      ∃ p ∈ logo.images, bundleName (Utf8.decodeLossy p) = bundleName m.name := by decide
  rw [← same] at matched
  exact matched

/-- Without a file for `logo` the path of the source is in the report. -/
theorem status_of_path_not_utf8 :
    let fs := logoProject "star".toList
    (run fs false []).status = 0 ∧
      run fs false ["--json".toList] =
        ⟨1, [], "Error: path contains invalid UTF-8 characters\n".toList⟩ := by
  intro fs
  obtain ⟨r, report, formless⟩ : ∃ r, ({} : Settings).report fs = .ok r ∧
      r.toJson = .error (.notUtf8 namelessSource) := ⟨_, rfl, rfl⟩
  have text : run fs false [] = (Request.audit {}).run fs false := run_of_ofWords rfl
  have json : run fs false ["--json".toList] = (Request.audit { json := true }).run fs false :=
    run_of_ofWords rfl
  rw [text, json, run_audit_text report rfl]
  exact ⟨rfl, run_audit_not_json report rfl formless⟩

end CommandLine

end AssetAudit

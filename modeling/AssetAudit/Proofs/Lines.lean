/-
AssetAudit/Proofs/Lines.lean

Findings and lines.

A report in text has a line for each finding, if no finding brings a line end of
its own (`splitOn_linesOf_iff`).  What a finding tells are names: a bundle name
and paths of sources, the path of an image file, or several of these
(`Finding.told`).  All of them may hold a line end, and `lines_match_findings`
says for which projects one gets into the report.
-/
import Mathlib.Data.List.Basic
import AssetAudit.Proofs.Matching
import AssetAudit.Proofs.Reading
import AssetAudit.Proofs.Running
import AssetAudit.Proofs.Splitting

namespace AssetAudit

/-! ### The line of a finding -/

theorem mem_commaSeparated_iff {c : Char} (h : c ∉ ", ".toList) {ts : List Text} :
    c ∈ commaSeparated ts ↔ ∃ t ∈ ts, c ∈ t := by
  rw [commaSeparated]
  induction ts with
  | nil => simp
  | cons t ts ih =>
    cases ts with
    | nil => simp
    | cons u ts =>
      rw [List.intercalate_cons_cons, List.mem_append, List.mem_append, ih,
        List.exists_mem_cons_iff _ t]
      constructor
      · rintro ((here | sep) | later)
        · exact .inl here
        · exact absurd sep h
        · exact .inr later
      · exact fun found => found.imp_left .inl

namespace Finding

/-- The texts that a finding tells, but for fixed words. -/
def told : Finding → List Text
  | .missingFiles bundle references => bundle :: references.map Utf8.decodeLossy
  | .missing _ image => [image]
  | .duplicates files => files

theorem newline_not_mem_heading (f : Finding) : '\n' ∉ f.heading := by
  cases f with
  | missingFiles bundle references =>
    show '\n' ∉ "Missing image files".toList
    decide
  | missing part image =>
    show '\n' ∉ part.heading.toList
    cases part <;> decide
  | duplicates files =>
    show '\n' ∉ "Potentially duplicate files".toList
    decide

/-- The line of a finding holds a line end exactly if what it tells does. -/
theorem newline_mem_line_iff {f : Finding} : '\n' ∈ f.line ↔ ∃ t ∈ f.told, '\n' ∈ t := by
  have fixed : '\n' ∉ f.heading ++ ": ".toList := by
    rw [List.mem_append, not_or]
    exact ⟨f.newline_not_mem_heading, by decide⟩
  rw [line, List.mem_append, or_iff_right fixed]
  cases f with
  | missingFiles bundle references =>
    have words : '\n' ∉ " (references: ".toList := by decide
    have last : '\n' ∉ [')'] := by decide
    rw [about, told, List.mem_append, List.mem_append, List.mem_append, or_iff_left last,
      or_iff_left words, mem_commaSeparated_iff (by decide), List.exists_mem_cons_iff]
  | missing part image => simp [about, told]
  | duplicates files => exact mem_commaSeparated_iff (by decide)

end Finding

/-- Lines are findings exactly if no finding holds a line end. -/
theorem splitOn_linesOf_iff {fs : List Finding} :
    (linesOf fs).splitOn '\n' = fs.map Finding.line ++ [[]] ↔ ∀ f ∈ fs, '\n' ∉ f.line := by
  have e : linesOf fs = (fs.map Finding.line).flatMap (· ++ ['\n']) := by
    rw [linesOf, List.flatMap_map]
  rw [e, splitOn_terminated_iff, List.forall_mem_map]

/-! ### The lines of an image and of a survey -/

/-- What is told of a known image: its own names where it has no file, its
first file where a part is missing, all files where two have one name. -/
theorem Asset.newline_free_iff {a : Asset} (known : a.files ≠ [] ∨ a.references ≠ []) :
    (∀ f ∈ a.findings, '\n' ∉ f.line) ↔
      (a.lacksFiles = true → '\n' ∉ a.bundle ∧ ∀ p ∈ a.references, '\n' ∉ Utf8.decodeLossy p) ∧
      (∀ p, a.lacks p = true → '\n' ∉ a.shownName) ∧
      (a.hasDuplicates = true → ∀ file ∈ a.files, '\n' ∉ file) := by
  simp only [mem_findings_iff known, Finding.newline_mem_line_iff, not_exists, not_and]
  constructor
  · intro h
    refine ⟨?_, ?_, ?_⟩
    · intro lacks
      have free := h _ (.inl ⟨lacks, rfl⟩)
      rw [Finding.told, List.forall_mem_cons, List.forall_mem_map] at free
      exact free
    · intro p lacks
      exact h _ (.inr (.inl ⟨p, lacks, rfl⟩)) _ (List.mem_singleton.mpr rfl)
    · intro duplicates
      exact h _ (.inr (.inr ⟨duplicates, rfl⟩))
  · rintro ⟨files, parts, duplicates⟩ f (⟨lacks, rfl⟩ | ⟨p, lacks, rfl⟩ | ⟨repeated, rfl⟩)
    · rw [Finding.told, List.forall_mem_cons, List.forall_mem_map]
      exact files lacks
    · intro t ht
      rw [List.mem_singleton.mp ht]
      exact parts p lacks
    · exact duplicates repeated

namespace Survey

theorem mem_findings_iff {s : Survey} {f : Finding} :
    f ∈ s.catalogue.findings ↔ ∃ b ∈ s.names, f ∈ (s.assetOf b).findings := by
  rw [Catalogue.findings, assets_catalogue, List.flatMap_map, List.mem_flatMap]
  simp only [List.mem_eraseDups]

/-- A known image that lacks a part is shown under its first file. -/
theorem head?_filesOf_of_lacks {s : Survey} {b : Text} (h : b ∈ s.names) {p : Part}
    (lacks : (s.assetOf b).lacks p = true) :
    (s.filesOf b).head? = some (s.assetOf b).shownName := by
  cases e : s.filesOf b with
  | cons f files => simp [assetOf, Asset.shownName, Asset.firstFile?, e]
  | nil =>
    -- without files it is mentioned, and lacks no variant
    have mentioned := (mem_names.mp h).resolve_left (not_not_intro e)
    cases p <;>
      simp [assetOf, Asset.lacks, Asset.allFiles, Asset.lacksFiles, e, mentioned] at lacks

/-- Images without files are the names that mentions come to and no image file
does. -/
theorem newline_free_missingFiles_iff {s : Survey} :
    (∀ b ∈ s.names, (s.assetOf b).lacksFiles = true →
      '\n' ∉ b ∧ ∀ p ∈ (s.assetOf b).references, '\n' ∉ Utf8.decodeLossy p) ↔
    ∀ m ∈ s.mentions, (∀ p ∈ s.images, bundleName (Utf8.decodeLossy p) ≠ bundleName m.name) →
      '\n' ∉ bundleName m.name ∧ '\n' ∉ Utf8.decodeLossy m.source := by
  constructor
  · intro h m hm unmatched
    have known := mem_names.mpr (.inr (mentionsOf_ne_nil_iff.mpr ⟨m, hm, rfl⟩))
    have files := filesOf_eq_nil_iff.mpr unmatched
    obtain ⟨name, sources⟩ := h _ known (by simp [assetOf, Asset.lacksFiles, files])
    refine ⟨name, sources _ ?_⟩
    exact List.mem_map_of_mem (List.mem_filter.mpr ⟨hm, decide_eq_true rfl⟩)
  · intro h b hb lacks
    have files : s.filesOf b = [] := by simpa [assetOf, Asset.lacksFiles] using lacks
    have unmatched := filesOf_eq_nil_iff.mp files
    have each (m : SourceMention) (hm : m ∈ s.mentions) (same : bundleName m.name = b) :
        '\n' ∉ b ∧ '\n' ∉ Utf8.decodeLossy m.source :=
      same ▸ h m hm (same ▸ unmatched)
    obtain ⟨m, hm, same⟩ := mentionsOf_ne_nil_iff.mp ((mem_names.mp hb).resolve_left (· files))
    refine ⟨(each m hm same).1, ?_⟩
    intro source mem
    obtain ⟨m', hm', rfl⟩ := List.mem_map.mp mem
    obtain ⟨mentioned, same'⟩ := List.mem_filter.mp hm'
    exact (each m' mentioned (of_decide_eq_true same')).2

/-- Images that lack a part are shown under their first files. -/
theorem newline_free_missing_iff {s : Survey} :
    (∀ b ∈ s.names, ∀ p, (s.assetOf b).lacks p = true → '\n' ∉ (s.assetOf b).shownName) ↔
    ∀ b p, (s.assetOf b).lacks p = true →
      ∀ image, (s.filesOf b).head? = some image → '\n' ∉ image := by
  constructor
  · intro h b p lacks image first
    have known : b ∈ s.names := mem_names.mpr (.inl (by rintro e; simp [e] at first))
    rw [head?_filesOf_of_lacks known lacks] at first
    cases first
    exact h b known p lacks
  · intro h b hb p lacks
    exact h b p lacks _ (head?_filesOf_of_lacks hb lacks)

/-- The findings of a survey are without line ends exactly if none is in the
names that come to no file, in the sources of these mentions, in the first file
of an image that lacks a part, and in any file of an image with duplicates. -/
theorem newline_free_iff (s : Survey) :
    (∀ f ∈ s.catalogue.findings, '\n' ∉ f.line) ↔
      (∀ m ∈ s.mentions, (∀ p ∈ s.images, bundleName (Utf8.decodeLossy p) ≠ bundleName m.name) →
        '\n' ∉ bundleName m.name ∧ '\n' ∉ Utf8.decodeLossy m.source) ∧
      (∀ b p, (s.assetOf b).lacks p = true →
        ∀ image, (s.filesOf b).head? = some image → '\n' ∉ image) ∧
      ∀ b, (s.assetOf b).hasDuplicates = true → ∀ file ∈ s.filesOf b, '\n' ∉ file := by
  have each : (∀ f ∈ s.catalogue.findings, '\n' ∉ f.line) ↔
      ∀ b ∈ s.names, ∀ f ∈ (s.assetOf b).findings, '\n' ∉ f.line := by
    simp only [mem_findings_iff]
    exact ⟨fun h b hb f hf => h f ⟨b, hb, hf⟩, fun h f ⟨b, hb, hf⟩ => h b hb f hf⟩
  have asset (b : Text) (hb : b ∈ s.names) := Asset.newline_free_iff (known_of_mem_names hb)
  -- a name that is not known has no files
  have duplicates : (∀ b ∈ s.names, (s.assetOf b).hasDuplicates = true →
        ∀ file ∈ (s.assetOf b).files, '\n' ∉ file) ↔
      ∀ b, (s.assetOf b).hasDuplicates = true → ∀ file ∈ s.filesOf b, '\n' ∉ file :=
    ⟨fun h b repeated file mem =>
      h b (mem_names.mpr (.inl (List.ne_nil_of_mem mem))) repeated file mem, fun h b _ => h b⟩
  rw [each, forall₂_congr asset, ← newline_free_missingFiles_iff, ← newline_free_missing_iff,
    ← duplicates]
  simp only [forall_and]
  rfl

end Survey

/-! ### The lines of a report -/

/-- **Lines are findings, where names do not bring line ends.**  The text of a
report, which is what a run in text writes, is cut at its line ends into the
lines of the findings, the last of them ended too, exactly if no finding holds a
line end.  That is so exactly if there is none in the bundle name and the source
of any mention that no image file comes to, in the first file of any image that
lacks a part, and in the files of any image of which two have one name. -/
theorem Walk.lines_match_findings {w : Walk} {r : Report} (h : w.audit = .ok r) :
    ((linesOf r.findings).splitOn '\n' = r.findings.map Finding.line ++ [[]] ↔
      ∀ f ∈ r.findings, '\n' ∉ f.line) ∧
    (∃ c : w.Collection, (∀ f ∈ r.findings, '\n' ∉ f.line) ↔
      (∀ m ∈ c.mentions, (∀ p ∈ c.images, bundleName (Utf8.decodeLossy p) ≠ bundleName m.name) →
        '\n' ∉ bundleName m.name ∧ '\n' ∉ Utf8.decodeLossy m.source) ∧
      (∀ b p, (c.toSurvey.assetOf b).lacks p = true →
        ∀ image, (c.toSurvey.filesOf b).head? = some image → '\n' ∉ image) ∧
      ∀ b, (c.toSurvey.assetOf b).hasDuplicates = true →
        ∀ file ∈ c.toSurvey.filesOf b, '\n' ∉ file) ∧
    ∀ fs colour words (s : CommandLine.Settings),
      CommandLine.Request.ofWords words = .ok (.audit s) → s.json = false → s.walk fs = .ok w →
        (CommandLine.runWords fs colour words).output = linesOf r.findings := by
  refine ⟨splitOn_linesOf_iff, ?_, ?_⟩
  · obtain ⟨c, rfl⟩ := Walk.audit_eq_ok_iff.mp h
    rw [c.toSurvey.findings_report]
    exact ⟨c, c.toSurvey.newline_free_iff⟩
  · intro fs colour words s asked text walk
    have report := CommandLine.Settings.report_eq_ok_iff.mpr ⟨w, walk, h⟩
    rw [CommandLine.runWords_of_ofWords asked, CommandLine.run_audit_text report text]

/-- A project whose one source is a property list that mentions `name`. -/
def plistProject (name : Text) : Walk where
  fs := {
    top := [.directory (Utf8.encode "p".toList) [
      .file (Utf8.encode "Info.plist".toList)
        (Utf8.encode ("<string>".toList ++ name ++ "</string>".toList))]]
    workingDirectory := [Utf8.encode "p".toList] }
  exclusion := .standard
  root := Utf8.encode ".".toList

theorem lines_match_on_plistProject :
    let w := plistProject "star.png".toList
    let star : Finding := .missingFiles "star".toList [Utf8.encode "Info.plist".toList]
    let line := "Missing image files: star (references: Info.plist)".toList
    w.audit = .ok ⟨[star], ⟨0, 1, 1, 1, 1⟩⟩ ∧
      (linesOf [star]).splitOn '\n' = [line, []] ∧
      (∃ c : w.Collection, ∀ m ∈ c.mentions,
        (∀ p ∈ c.images, bundleName (Utf8.decodeLossy p) ≠ bundleName m.name) →
          '\n' ∉ bundleName m.name) ∧
      (CommandLine.run w.fs false []).output = line ++ ['\n'] := by
  intro w star line
  have audit : w.audit = .ok ⟨[star], ⟨0, 1, 1, 1, 1⟩⟩ := by
    rw [Walk.audit_eq]
    rfl
  obtain ⟨split, ⟨c, names⟩, output⟩ := Walk.lines_match_findings audit
  have free : ∀ f ∈ [star], '\n' ∉ f.line := by decide
  have text : [star].map Finding.line ++ [[]] = [line, []] := by decide
  refine ⟨audit, (split.mpr free).trans text, ⟨c, ?_⟩, ?_⟩
  · intro m hm unmatched
    exact ((names.mp free).1 m hm unmatched).1
  · have written : linesOf [star] = line ++ ['\n'] := by decide
    exact (output w.fs false [] {} rfl rfl rfl).trans written

/-- The name that this property list mentions begins with a line end, and its
one finding takes two lines. -/
theorem lines_of_newline_in_name :
    let w := plistProject "\nstar.png".toList
    let star : Finding := .missingFiles "\nstar".toList [Utf8.encode "Info.plist".toList]
    w.audit = .ok ⟨[star], ⟨0, 1, 1, 1, 1⟩⟩ ∧
      (linesOf [star]).splitOn '\n' =
        ["Missing image files: ".toList, "star (references: Info.plist)".toList, []] ∧
      (linesOf [star]).splitOn '\n' ≠ [star].map Finding.line ++ [[]] ∧
      (CommandLine.run w.fs false []).output = linesOf [star] := by
  intro w star
  have audit : w.audit = .ok ⟨[star], ⟨0, 1, 1, 1, 1⟩⟩ := by
    rw [Walk.audit_eq]
    rfl
  have report : ({} : CommandLine.Settings).report w.fs = .ok ⟨[star], ⟨0, 1, 1, 1, 1⟩⟩ :=
    CommandLine.Settings.report_eq_ok_iff.mpr ⟨w, rfl, audit⟩
  have text : CommandLine.run w.fs false [] = (CommandLine.Request.audit {}).run w.fs false :=
    CommandLine.run_of_ofWords rfl
  refine ⟨audit, by decide, by decide, ?_⟩
  rw [text, CommandLine.run_audit_text report rfl]

end AssetAudit

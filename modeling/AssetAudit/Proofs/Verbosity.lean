/-
AssetAudit/Proofs/Verbosity.lean

What an audit writes, with totals or without.

Without `--json` a run writes its findings one by one, and what it has written
at its end is the text of all findings of the audit.  Asking for totals adds
messages around those of the run, totals before the report and a summary behind
a report in text, and changes nothing else: not what is written, and not the
status, where the run breaks off as little as where it does not
(`run_verbose_of_report`, `run_verbose_of_error`).

Main result: `verbose_adds_messages_only`.  It speaks of words that are still
accepted with `--verbose` put in, for the option is not taken twice
(`verbose_twice_refused`).
-/
import AssetAudit.Proofs.ExitStatus
import AssetAudit.Proofs.Flags

namespace AssetAudit.CommandLine

variable {fs : FileSystem} {colour : Bool} {s : Settings} {r : Report} {f : Failure}

/-! ### With totals -/

/-- The outcome with messages around those that it has. -/
def Outcome.surrounded (o : Outcome) (before behind : Text) : Outcome :=
  { o with messages := before ++ o.messages ++ behind }

@[simp] theorem Outcome.surrounded_nil (o : Outcome) : o.surrounded [] [] = o := by
  rw [surrounded, List.nil_append, List.append_nil]

/-- What is told behind a report: a summary, where the report is a text. -/
def summaryBehind (colour : Bool) (s : Settings) (r : Report) : Text :=
  if s.json then [] else summaryText colour r.findings.length

/-- Where there is no report there are no totals. -/
theorem run_verbose_of_error (h : s.report fs = .error f) :
    (Request.audit (s.mark .verbose)).run fs colour = (Request.audit s).run fs colour := by
  have same : (s.mark .verbose).report fs = .error f := h
  rw [run_audit_of_error h, run_audit_of_error same]

/-- Totals are told before a report, and a summary behind it. -/
theorem run_verbose_of_report (off : s.verbose = false) (h : s.report fs = .ok r) :
    (Request.audit (s.mark .verbose)).run fs colour =
      ((Request.audit s).run fs colour).surrounded (totalsText colour r.totals)
        (summaryBehind colour s r) := by
  have same : (s.mark .verbose).report fs = .ok r := h
  have before : notedBefore colour s r = [] := by rw [notedBefore, off, if_neg Bool.false_ne_true]
  have behind : notedBehind colour s r = [] := by rw [notedBehind, off, if_neg Bool.false_ne_true]
  have totals : notedBefore colour (s.mark .verbose) r = totalsText colour r.totals := rfl
  cases form : s.json with
  | false =>
    have summary : summaryBehind colour s r = summaryText colour r.findings.length := by
      rw [summaryBehind, form, if_neg Bool.false_ne_true]
    rw [run_audit_text h form, run_audit_text same form, before, behind, totals, summary,
      Outcome.surrounded, List.append_nil, List.append_nil]
    rfl
  | true =>
    have summary : summaryBehind colour s r = [] := by rw [summaryBehind, form, if_pos rfl]
    cases json : r.toJson with
    | ok j =>
      rw [run_audit_json h form json, run_audit_json same form json, before, totals, summary,
        Outcome.surrounded, List.append_nil, List.append_nil]
    | error e =>
      rw [run_audit_not_json h form json, run_audit_not_json same form json, before, totals,
        summary, Outcome.surrounded, List.nil_append, List.append_nil]

/-- Asking for totals adds messages and changes nothing else. -/
theorem run_verbose (s : Settings) : ∃ before behind,
    (Request.audit (s.mark .verbose)).run fs colour =
      ((Request.audit s).run fs colour).surrounded before behind := by
  cases off : s.verbose with
  | true =>
    have same : s.mark .verbose = s := by rw [Settings.mark, ← off]
    exact ⟨[], [], by rw [same, Outcome.surrounded_nil]⟩
  | false =>
    cases h : s.report fs with
    | error f => exact ⟨[], [], by rw [run_verbose_of_error h, Outcome.surrounded_nil]⟩
    | ok r => exact ⟨_, _, run_verbose_of_report off h⟩

/-! ### The program and the audit it makes -/

/-- An audit in text that ends with status 0 has written the lines of all that
the audit finds. -/
theorem output_of_status_zero (text : s.json = false)
    (ended : ((Request.audit s).run fs colour).status = 0) : ∃ exclusion r,
      Exclusion.ofPatterns s.excludes (!s.noDefaultExcludes) = .ok exclusion ∧
      Walk.audit ⟨fs, exclusion, s.rootOrHere⟩ = .ok r ∧
      ((Request.audit s).run fs colour).output = linesOf r.findings := by
  obtain ⟨r, report⟩ := (status_text_iff text).mp ended
  obtain ⟨w, walk, audited⟩ := Settings.report_eq_ok_iff.mp report
  obtain ⟨exclusion, read, e⟩ := Except.bind_eq_ok_iff.mp walk
  cases e
  exact ⟨exclusion, r, read, audited, by rw [run_audit_text report text]⟩

/-- **The program writes what the audit finds, and totals change none of it.**
On words that ask for an audit in text, a run that ends with status 0 has written
the lines of all findings of the audit with the same root and the same patterns.
In either form, words that ask for totals besides make a run with the same status
and the same output; only messages are added, around those that were there.  Such
are the words with `--verbose` in front if they do not ask for totals yet, and
with `--verbose` put in anywhere if they are accepted then. -/
theorem verbose_adds_messages_only {words : List Bytes}
    (asked : Request.ofWords words = .ok (.audit s)) :
    (s.json = false → (runWords fs colour words).status = 0 → ∃ exclusion r,
      Exclusion.ofPatterns s.excludes (!s.noDefaultExcludes) = .ok exclusion ∧
      Walk.audit ⟨fs, exclusion, s.rootOrHere⟩ = .ok r ∧
      (runWords fs colour words).output = linesOf r.findings) ∧
    (∀ words', Request.ofWords words' = .ok (.audit { s with verbose := true }) →
      ∃ before behind,
        runWords fs colour words' = (runWords fs colour words).surrounded before behind) ∧
    (s.verbose = false → Request.ofWords (bytesOf "--verbose" :: words) =
      .ok (.audit { s with verbose := true })) ∧
    ∀ front back request, words = front ++ back →
      Request.ofWords (front ++ bytesOf "--verbose" :: back) = .ok request →
      s.verbose = false ∧ request = .audit { s with verbose := true } ∧
        (runWords fs colour (front ++ bytesOf "--verbose" :: back)).status =
          (runWords fs colour words).status ∧
        (runWords fs colour (front ++ bytesOf "--verbose" :: back)).output =
          (runWords fs colour words).output := by
  have more : ∀ words', Request.ofWords words' = .ok (.audit { s with verbose := true }) →
      ∃ before behind,
        runWords fs colour words' = (runWords fs colour words).surrounded before behind := by
    intro words' asked'
    rw [runWords_of_ofWords asked, runWords_of_ofWords asked']
    exact run_verbose s
  refine ⟨?_, more, ?_, ?_⟩
  · intro text ended
    rw [runWords_of_ofWords asked] at ended ⊢
    exact output_of_status_zero text ended
  · intro off
    exact Request.ofWords_cons_flag (f := .verbose) asked off rfl
  · rintro front back request rfl accepted
    rcases Request.ofWords_insert_flag (f := .verbose) rfl asked with ⟨off, read⟩ | ⟨e, refused⟩
    · obtain rfl : request = .audit { s with verbose := true } :=
        Except.ok.inj (accepted.symm.trans read)
      obtain ⟨before, behind, same⟩ := more _ accepted
      rw [same]
      exact ⟨off, rfl, rfl, rfl⟩
    · cases accepted.symm.trans refused

/-- Three findings are written, with totals or without, wherever they are asked
for. -/
theorem verbose_adds_messages_on_logoProject :
    let fs := logoProject "star".toList
    let words := [bytesOf "-r", bytesOf "."]
    let more := words ++ [bytesOf "--verbose"]
    (runWords fs false words).status = 0 ∧ (runWords fs false more).status = 0 ∧
      (runWords fs false more).output = (runWords fs false words).output ∧
      Request.ofWords (bytesOf "--verbose" :: words) = Request.ofWords more ∧
      (runWords fs false words).output = ("Missing references: star.png\n" ++
        "Missing Retina version: star.png\n" ++
        "Missing image files: logo (references: \uFFFD.m)\n").toList := by
  intro fs words more
  let s : Settings := { root := some (bytesOf ".") }
  let star : Survey := {
    images := [Utf8.encode "star.png".toList]
    sources := [Utf8.encode "./".toList ++ namelessSource]
    mentions := [⟨"logo".toList, namelessSource, .objectiveC⟩] }
  obtain ⟨w, walk, surveyed⟩ : ∃ w, s.walk fs = .ok w ∧ w.survey = .ok star := ⟨_, rfl, rfl⟩
  have audited : w.audit = .ok star.report := by
    rw [Walk.audit_eq, surveyed]
    rfl
  have asked : Request.ofWords words = .ok (.audit s) := by rfl
  have accepted : Request.ofWords more = .ok (.audit { s with verbose := true }) := by rfl
  obtain ⟨written, _, front, anywhere⟩ := @verbose_adds_messages_only fs false s words asked
  obtain ⟨_, _, status, output⟩ := anywhere words [] _ (List.append_nil words).symm accepted
  have ended : (runWords fs false words).status = 0 := by
    rw [runWords_of_ofWords asked, status_text_iff rfl]
    exact ⟨_, Settings.report_eq_ok_iff.mpr ⟨w, walk, audited⟩⟩
  refine ⟨ended, status.trans ended, output, (front rfl).trans accepted.symm, ?_⟩
  obtain ⟨exclusion, r, patterns, audited', lines⟩ := written rfl ended
  -- the audit that is written is the one of this walk
  have same : w = ⟨fs, exclusion, s.rootOrHere⟩ := by
    rw [Settings.walk, patterns] at walk
    exact (Except.ok.inj walk).symm
  rw [← same, audited] at audited'
  cases audited'
  rw [lines]
  decide

/-- Who asks for totals already cannot ask for them once more. -/
theorem verbose_twice_refused :
    let fs := logoProject "star".toList
    let words := [bytesOf "--verbose"]
    Request.ofWords words = .ok (.audit { verbose := true }) ∧
      (runWords fs false words).status = 0 ∧
      (runWords fs false (bytesOf "--verbose" :: words)).status = 2 := by
  intro fs words
  have asked : Request.ofWords words = .ok (.audit { verbose := true }) := by rfl
  have refused : Request.ofWords (bytesOf "--verbose" :: words) = .error .repeated := by rfl
  refine ⟨asked, ?_, ?_⟩
  · rw [runWords_of_ofWords asked, status_text_iff rfl]
    exact ⟨_, rfl⟩
  · rw [runWords, refused]

end AssetAudit.CommandLine

/-
AssetAudit/Proofs/Wholeness.lean

A run that breaks off has written nothing.

A run writes as it goes along, and what was written before it breaks off stays
written: a scan lists the image files before it looks for any source, and an
audit in JSON tells the totals before it is known whether the report can be
written.  Here the answer to a request is worked out first, with no writing at
all (`Request.answer`): a text, or the reason why there is none.  A run then
ends with status 0 and has written the whole answer, or it ends with status 1,
has written nothing and tells the reason (`Request.run_shows_answer`).

What carries the scan is that a walk finds all or nothing, whatever it is asked
for (`Walk.select_eq_error_iff`).  So where the image files were found, the
walks for the sources cannot fail any more, and the first list is written only
if all are.

Main result: `nothing_written_on_failure`.
-/
import AssetAudit.Proofs.Scanning

namespace AssetAudit

/-! ### One walk for all files -/

namespace Walk

/-- Where the image files are found, so are the sources of each format. -/
theorem exists_sourceFiles_of_imageFiles {w : Walk} {images : List Bytes}
    (h : w.imageFiles = .ok images) (format : SourceFormat) :
    ∃ files, w.sourceFiles format = .ok files := by
  obtain ⟨_, selected, _⟩ := Except.map_eq_ok_iff.mp h
  obtain ⟨found, ok, _⟩ := Except.map_eq_ok_iff.mp selected
  exact ⟨_, sourceFiles_of_found ok format⟩

end Walk

namespace CommandLine

variable {fs : FileSystem} {colour : Bool} {s : Settings} {w : Walk} {r : Report} {f : Failure}

/-! ### Answers -/

/-- The text of a report in the form that is wanted. -/
def Settings.textOf (s : Settings) (r : Report) : Except Abort Text :=
  if s.json then (r.toJson.map fun j => j.pretty ++ ['\n']).mapError .report
  else .ok (linesOf r.findings)

/-- The text of all lists of a scan. -/
def listText (w : Walk) : Except Failure Text := do
  let images ← w.imageFiles
  let sources ← SourceFormat.all.mapM fun format =>
    (w.sourceFiles format).map (filesText (['/'].intercalate format.extensions))
  return filesText "image".toList images ++ sources.flatten

/-- What a request asks for, or the reason why there is no answer. -/
def Request.answer (fs : FileSystem) : Request → Except Abort Text
  | .audit s => (s.report fs).mapError .audit >>= s.textOf
  | .scan s => (s.walk fs >>= listText).mapError .audit
  | .help topic => .ok (helpText topic)
  | .version => .ok versionText

/-- A run in which the answer is written, or nothing is written and the reason
is told last. -/
def Outcome.Shows (o : Outcome) : Except Abort Text → Prop
  | .ok text => o.status = 0 ∧ o.output = text
  | .error reason => o.status = 1 ∧ o.output = [] ∧ failureText reason.chain <:+ o.messages

/-- Who ends with status 1 has written nothing. -/
theorem Outcome.Shows.output_eq_nil {o : Outcome} {answer : Except Abort Text}
    (shows : o.Shows answer) (failed : o.status = 1) : o.output = [] := by
  cases answer with
  | ok text => exact absurd (failed.symm.trans shows.1) Nat.one_ne_zero
  | error reason => exact shows.2.1

theorem Settings.textOf_text (text : s.json = false) : s.textOf r = .ok (linesOf r.findings) := by
  rw [textOf, text, if_neg Bool.false_ne_true]

theorem Settings.textOf_json (json : s.json = true) :
    s.textOf r = (r.toJson.map fun j => j.pretty ++ ['\n']).mapError .report := by
  rw [textOf, json, if_pos rfl]

/-! ### The audit -/

theorem answer_audit_of_error (h : s.report fs = .error f) :
    (Request.audit s).answer fs = .error (.audit f) := by
  rw [Request.answer, h]
  rfl

theorem answer_audit_of_ok (h : s.report fs = .ok r) :
    (Request.audit s).answer fs = s.textOf r := by
  rw [Request.answer, h]
  rfl

theorem run_audit_shows_answer :
    ((Request.audit s).run fs colour).Shows ((Request.audit s).answer fs) := by
  cases h : s.report fs with
  | error f =>
    rw [answer_audit_of_error h, run_audit_of_error h]
    exact ⟨rfl, rfl, List.suffix_rfl⟩
  | ok r =>
    rw [answer_audit_of_ok h]
    cases json : s.json with
    | false =>
      rw [Settings.textOf_text json, run_audit_text h json]
      exact ⟨rfl, rfl⟩
    | true =>
      rw [Settings.textOf_json json]
      cases form : r.toJson with
      | ok j =>
        rw [run_audit_json h json form]
        exact ⟨rfl, rfl⟩
      | error e =>
        rw [run_audit_not_json h json form]
        exact ⟨rfl, rfl, List.suffix_append _ _⟩

/-! ### The scan -/

theorem listText_of_error (h : w.imageFiles = .error f) : listText w = .error f := by
  rw [listText, h]
  rfl

theorem listText_of_ok {images : List Bytes} {sources : SourceFormat → List Bytes}
    (hi : w.imageFiles = .ok images) (hs : ∀ format, w.sourceFiles format = .ok (sources format)) :
    listText w = .ok (scanText images sources) := by
  have each : ∀ format ∈ SourceFormat.all,
      (w.sourceFiles format).map (filesText (['/'].intercalate format.extensions)) =
        .ok (filesText (['/'].intercalate format.extensions) (sources format)) := by
    intro format _
    rw [hs]
    rfl
  rw [listText, hi, Except.ok_bind, mapM_eq_ok_of_forall each, scanText, List.flatMap_def]
  rfl

/-- Without a walk nothing but the failure is told. -/
theorem run_scan_of_walk_error (h : s.walk fs = .error f) :
    (Request.scan s).run fs colour = ⟨1, [], failureText f.chain⟩ := by
  have broken : (runScan fs s).run.run {} = (.error (.audit f), {}) := by
    rw [runScan, h, Console.run_bind_of_error (Console.run_require_error _ _)]
  exact outcome_of_run_error broken

theorem run_scan_shows_answer :
    ((Request.scan s).run fs colour).Shows ((Request.scan s).answer fs) := by
  cases walk : s.walk fs with
  | error f =>
    rw [run_scan_of_walk_error walk, Request.answer, walk]
    exact ⟨rfl, rfl, List.suffix_rfl⟩
  | ok w =>
    rw [Request.answer, walk, Except.ok_bind]
    cases images : w.imageFiles with
    | error f =>
      rw [run_scan_of_error walk (Walk.imageFiles_eq_error_iff.mp images), listText_of_error images]
      exact ⟨rfl, rfl, List.suffix_rfl⟩
    | ok files =>
      -- one walk has come to an end, so the others will
      choose sources found using Walk.exists_sourceFiles_of_imageFiles images
      rw [run_scan walk images found, listText_of_ok images found]
      exact ⟨rfl, rfl⟩

/-! ### All requests -/

/-- A run writes the whole answer, or nothing and the reason. -/
theorem Request.run_shows_answer (request : Request) :
    (request.run fs colour).Shows (request.answer fs) := by
  cases request with
  | audit s => exact run_audit_shows_answer
  | scan s => exact run_scan_shows_answer
  | help topic => exact ⟨rfl, rfl⟩
  | version => exact ⟨rfl, rfl⟩

/-- **A run that fails has written nothing.**  On every command line that is
accepted, a run that ends with status 1 has no output; it tells the reason for
which what is asked for has no answer, and where there is an answer, all of it
is written.  In particular a walk that finds the image files finds the sources
of each format, and a report that has no JSON form makes the run break off
before anything but a message is written. -/
theorem nothing_written_on_failure {words : List Bytes} {request : Request}
    (asked : Request.ofWords words = .ok request) :
    ((runWords fs colour words).status = 1 → (runWords fs colour words).output = []) ∧
    (runWords fs colour words).Shows (request.answer fs) ∧
    (∀ (w : Walk) images, w.imageFiles = .ok images →
      ∀ format, ∃ files, w.sourceFiles format = .ok files) ∧
    ∀ s r e, request = .audit s → s.json = true → s.report fs = .ok r → r.toJson = .error e →
      runWords fs colour words = ⟨1, [], notedBefore colour s r ++ failureText [e.message]⟩ := by
  have shows : (request.run fs colour).Shows (request.answer fs) := request.run_shows_answer
  rw [runWords_of_ofWords asked]
  refine ⟨shows.output_eq_nil, shows, ?_, ?_⟩
  · intro w images found
    exact Walk.exists_sourceFiles_of_imageFiles found
  · rintro s r e rfl json report formless
    exact run_audit_not_json report json formless

/-- A report that has no JSON form, and a scan of what is not there, at a root
that is not UTF-8 either. -/
theorem nothing_written_on_logoProject :
    let fs := logoProject "star".toList
    let json := [bytesOf "--json", bytesOf "--verbose"]
    let scan := [bytesOf "scan", bytesOf "-r" ++ [0xFF]]
    ((runWords fs false json).status = 1 ∧ (runWords fs false json).output = []) ∧
      (runWords fs false scan).status = 1 ∧ (runWords fs false scan).output = [] := by
  intro fs json scan
  have asked : Request.ofWords json = .ok (.audit { json := true, verbose := true }) := by rfl
  obtain ⟨r, report, formless⟩ : ∃ r,
      ({ json := true, verbose := true } : Settings).report fs = .ok r ∧
        r.toJson = .error (.notUtf8 namelessSource) := ⟨_, rfl, rfl⟩
  obtain ⟨silent, _, _, broken⟩ := @nothing_written_on_failure fs false json _ asked
  have ends : (runWords fs false json).status = 1 := by rw [broken _ r _ rfl rfl report formless]
  have asked' : Request.ofWords scan = .ok (.scan { root := some [0xFF] }) := by rfl
  obtain ⟨silent', shows, _⟩ := @nothing_written_on_failure fs false scan _ asked'
  have nowhere : (Request.scan { root := some [0xFF] }).answer fs =
      .error (.audit (.walk [0xFF] [0xFF] .notFound)) := by rfl
  rw [nowhere] at shows
  exact ⟨⟨ends, silent ends⟩, shows.1, silent' shows.1⟩

end CommandLine

end AssetAudit

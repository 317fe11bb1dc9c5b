/-
AssetAudit/Proofs/Running.lean

How a run of the audit ends.

What the settings ask for is audited first (`Settings.report`).  If that fails,
the run breaks off with nothing written.  Otherwise the totals are noted, if
they are wanted, and the report is written (`writeReport`): as text, which
always succeeds, or as JSON, which may not, and then nothing is written either.

The outcomes of the four cases are `run_audit_of_error`, `run_audit_text`,
`run_audit_json` and `run_audit_not_json`.
-/
import AssetAudit.CommandLine.Run
import AssetAudit.Proofs.Outcomes

namespace AssetAudit.CommandLine

/-! ### Parts of a run -/

namespace Console

variable {α β : Type} {x : Console α} {f : α → Console β} {t t' : Streams}

/-- A part that comes to a result hands it over, with what was written. -/
theorem run_bind_of_ok {a : α} (h : x.run.run t = (.ok a, t')) :
    (x >>= f).run.run t = (f a).run.run t' := by
  show (ExceptT.bindCont f (x.run.run t).1).run (x.run.run t).2 = _
  rw [h]
  rfl

/-- Behind a part that breaks off nothing happens. -/
theorem run_bind_of_error {e : Abort} (h : x.run.run t = (.error e, t')) :
    (x >>= f).run.run t = (.error e, t') := by
  show (ExceptT.bindCont f (x.run.run t).1).run (x.run.run t).2 = _
  rw [h]
  rfl

theorem run_requireWritten_ok (a : α) (t : Streams) :
    (requireWritten (.ok a)).run.run t = (.ok a, t) := rfl

theorem run_requireWritten_error (e : ReportError) (t : Streams) :
    (requireWritten (.error e) : Console α).run.run t = (.error (.report e), t) := rfl

/-- What is gone on with step by step is gone on with at once. -/
theorem require_bind {γ : Type} (x : Except Failure α) (f : α → Except Failure β)
    (k : β → Console γ) :
    (require x >>= fun a => require (f a) >>= k) = require (x >>= f) >>= k := by
  cases x with
  | error e => rfl
  | ok a => exact pure_bind a _

/-- Writes a message if it is wanted. -/
def noteIf (wanted : Bool) (message : Text) : Console Unit :=
  if wanted then note message else pure ()

theorem run_noteIf (wanted : Bool) (message : Text) (t : Streams) :
    (noteIf wanted message).run.run t =
      (.ok (), { t with messages := t.messages ++ if wanted then message else [] }) := by
  cases wanted with
  | false =>
    show (Except.ok (), t) = _
    simp
  | true => rfl

/-- Parts that each write their text write the texts one behind the other. -/
theorem run_forM_of_prints {part : α → Console Unit} {text : α → Text} {xs : List α}
    (h : ∀ a ∈ xs, ∀ t : Streams,
      (part a).run.run t = (.ok (), { t with output := t.output ++ text a })) (t : Streams) :
    (xs.forM part).run.run t = (.ok (), { t with output := t.output ++ xs.flatMap text }) := by
  induction xs generalizing t with
  | nil =>
    show (Except.ok (), t) = _
    simp
  | cons a xs ih =>
    obtain ⟨first, later⟩ := List.forall_mem_cons.mp h
    rw [List.forM_eq_forM, List.forM_cons]
    refine (run_bind_of_ok (first t)).trans ((ih later _).trans ?_)
    simp

/-- Lines are written one behind the other. -/
theorem run_forM_print (fs : List Finding) (t : Streams) :
    (fs.forM fun f => print (f.line ++ ['\n'])).run.run t =
      (.ok (), { t with output := t.output ++ linesOf fs }) :=
  run_forM_of_prints (fun _ _ _ => rfl) t

end Console

variable {fs : FileSystem} {colour : Bool} {s : Settings} {r : Report}

/-- The report that settings ask for. -/
def Settings.report (s : Settings) (fs : FileSystem) : Except Failure Report :=
  s.walk fs >>= Walk.audit

theorem Settings.report_eq_ok_iff :
    s.report fs = .ok r ↔ ∃ w, s.walk fs = .ok w ∧ w.audit = .ok r :=
  Except.bind_eq_ok_iff

/-- Writes a report in the form that is wanted. -/
def writeReport (colour : Bool) (s : Settings) (r : Report) : Console Unit :=
  if s.json then do
    let json ← Console.requireWritten r.toJson
    Console.print (json.pretty ++ ['\n'])
  else do
    r.findings.forM fun f => Console.print (f.line ++ ['\n'])
    Console.noteIf s.verbose (summaryText colour r.findings.length)

/-- An audit is made, then told of, then written. -/
theorem runAudit_eq :
    runAudit fs colour s = Console.require (s.report fs) >>= fun r =>
      Console.noteIf s.verbose (totalsText colour r.totals) >>= fun _ =>
        writeReport colour s r := by
  rw [runAudit, Settings.report, ← Console.require_bind]
  refine bind_congr fun w => bind_congr fun r => ?_
  rw [writeReport]
  cases s.verbose with
  | false => exact (pure_bind _ _).symm
  | true => rfl

/-! ### Whole runs -/

theorem runWords_of_ofWords {words : List Bytes} {request : Request}
    (asked : Request.ofWords words = .ok request) :
    runWords fs colour words = request.run fs colour := by
  rw [runWords, asked]

theorem run_of_ofWords {words : List Text} {request : Request}
    (asked : Request.ofWords (words.map Utf8.encode) = .ok request) :
    run fs colour words = request.run fs colour :=
  runWords_of_ofWords asked

/-- Without a report nothing but the failure is told. -/
theorem run_audit_of_error {f : Failure} (h : s.report fs = .error f) :
    (Request.audit s).run fs colour = ⟨1, [], failureText f.chain⟩ := by
  rw [Request.run, runAudit_eq, h]
  rfl

/-- What is noted before a report is written. -/
def notedBefore (colour : Bool) (s : Settings) (r : Report) : Text :=
  if s.verbose then totalsText colour r.totals else []

/-- What is noted behind a report in text. -/
def notedBehind (colour : Bool) (s : Settings) (r : Report) : Text :=
  if s.verbose then summaryText colour r.findings.length else []

theorem outcome_of_run {c : Console Unit} {t : Streams} (h : c.run.run {} = (.ok (), t)) :
    c.outcome = ⟨0, t.output, t.messages⟩ := by
  rw [Console.outcome, h]

theorem outcome_of_run_error {c : Console Unit} {t : Streams} {a : Abort}
    (h : c.run.run {} = (.error a, t)) :
    c.outcome = ⟨1, t.output, t.messages ++ failureText a.chain⟩ := by
  rw [Console.outcome, h]

/-- With a report, the run is that of its writing. -/
theorem run_runAudit (h : s.report fs = .ok r) :
    (runAudit fs colour s).run.run {} =
      (writeReport colour s r).run.run { messages := notedBefore colour s r } := by
  rw [runAudit_eq, h, Console.run_bind_of_ok (Console.run_require_ok r {}),
    Console.run_bind_of_ok (Console.run_noteIf _ _ _)]
  rfl

/-- A report in text is written. -/
theorem run_audit_text (h : s.report fs = .ok r) (text : s.json = false) :
    (Request.audit s).run fs colour =
      ⟨0, linesOf r.findings, notedBefore colour s r ++ notedBehind colour s r⟩ := by
  have written : (writeReport colour s r).run.run { messages := notedBefore colour s r } =
      (.ok (), ⟨linesOf r.findings, notedBefore colour s r ++ notedBehind colour s r⟩) := by
    rw [writeReport, text, if_neg Bool.false_ne_true,
      Console.run_bind_of_ok (Console.run_forM_print _ _), Console.run_noteIf]
    rfl
  exact outcome_of_run ((run_runAudit h).trans written)

/-- A report in JSON is written, if it has that form. -/
theorem run_audit_json {j : Json} (h : s.report fs = .ok r) (json : s.json = true)
    (form : r.toJson = .ok j) :
    (Request.audit s).run fs colour = ⟨0, j.pretty ++ ['\n'], notedBefore colour s r⟩ := by
  have written : (writeReport colour s r).run.run { messages := notedBefore colour s r } =
      (.ok (), ⟨j.pretty ++ ['\n'], notedBefore colour s r⟩) := by
    rw [writeReport, json, if_pos rfl, form,
      Console.run_bind_of_ok (Console.run_requireWritten_ok _ _)]
    rfl
  exact outcome_of_run ((run_runAudit h).trans written)

/-- A report without a JSON form makes the run break off. -/
theorem run_audit_not_json {e : ReportError} (h : s.report fs = .ok r) (json : s.json = true)
    (formless : r.toJson = .error e) :
    (Request.audit s).run fs colour =
      ⟨1, [], notedBefore colour s r ++ failureText [e.message]⟩ := by
  have broken : (writeReport colour s r).run.run { messages := notedBefore colour s r } =
      (.error (.report e), ⟨[], notedBefore colour s r⟩) := by
    rw [writeReport, json, if_pos rfl, formless,
      Console.run_bind_of_error (Console.run_requireWritten_error _ _)]
  exact outcome_of_run_error ((run_runAudit h).trans broken)

end AssetAudit.CommandLine

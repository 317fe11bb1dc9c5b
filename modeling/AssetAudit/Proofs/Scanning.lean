/-
AssetAudit/Proofs/Scanning.lean

How a scan ends, and how an audit of the same project does.

A scan writes the files that an audit would read: all lists one behind the
other, each under a heading with its length (`scanText`).  It makes the same
walk as the audit, so it breaks off where the walk does; what the audit reads
beyond that can always be read, and the root alone decides over both.

Main result: `Walk.audit_fails_only_at_root`.
-/
import AssetAudit.Proofs.ExitStatus
import AssetAudit.Proofs.Readable
import Mathlib.Algebra.GroupWithZero.Nat

namespace AssetAudit

/-! ### What a scan writes -/

namespace CommandLine

variable {fs : FileSystem} {colour : Bool} {s : Settings} {w : Walk} {f : Failure}

/-- The list of files, each on a line of its own. -/
def pathLines (files : List Bytes) : Text :=
  files.flatMap fun f => "  ".toList ++ Utf8.decodeLossy f ++ ['\n']

/-- The heading of a list of so many files of some kind. -/
def filesHeading (kind : Text) (n : Nat) : Text :=
  "Would scan ".toList ++ decimal n ++ [' '] ++ kind ++ " files:\n".toList

/-- A list of files of some kind under its heading. -/
def filesText (kind : Text) (files : List Bytes) : Text :=
  filesHeading kind files.length ++ pathLines files

/-- The image files, then the sources of each format. -/
def scanText (images : List Bytes) (sources : SourceFormat → List Bytes) : Text :=
  filesText "image".toList images ++
    SourceFormat.all.flatMap fun format =>
      filesText (['/'].intercalate format.extensions) (sources format)

theorem run_printFiles (kind : Text) (files : List Bytes) (t : Streams) :
    (printFiles kind files).run.run t =
      (.ok (), { t with output := t.output ++ filesText kind files }) := by
  have lines (t : Streams) :
      (files.forM fun f => Console.print ("  ".toList ++ Utf8.decodeLossy f ++ ['\n'])).run.run t =
        (.ok (), { t with output := t.output ++ pathLines files }) :=
    Console.run_forM_of_prints (fun _ _ _ => rfl) t
  have heading := Console.run_print (filesHeading kind files.length) t
  refine (Console.run_bind_of_ok heading).trans ((lines _).trans ?_)
  rw [filesText, ← List.append_assoc]

/-- A scan writes what is found, once it is found. -/
theorem run_scan {images : List Bytes} {sources : SourceFormat → List Bytes}
    (walk : s.walk fs = .ok w) (hi : w.imageFiles = .ok images)
    (hs : ∀ format, w.sourceFiles format = .ok (sources format)) :
    (Request.scan s).run fs colour = ⟨0, scanText images sources, []⟩ := by
  let part (format : SourceFormat) : Console Unit := do
    let files ← Console.require (w.sourceFiles format)
    printFiles (['/'].intercalate format.extensions) files
  let text (format : SourceFormat) : Text :=
    filesText (['/'].intercalate format.extensions) (sources format)
  have each : ∀ format ∈ SourceFormat.all, ∀ t : Streams, (part format).run.run t =
      (.ok (), { t with output := t.output ++ text format }) := by
    intro format _ t
    show (Console.require (w.sourceFiles format) >>= _).run.run t = _
    rw [hs, Console.run_bind_of_ok (Console.run_require_ok _ _), run_printFiles]
  have written : (runScan fs s).run.run {} = (.ok (), ⟨scanText images sources, []⟩) := by
    rw [runScan, walk, Console.run_bind_of_ok (Console.run_require_ok _ _), hi,
      Console.run_bind_of_ok (Console.run_require_ok _ _),
      Console.run_bind_of_ok (run_printFiles _ _ _)]
    exact Console.run_forM_of_prints each _
  exact outcome_of_run written

/-- Where the walk fails nothing is written. -/
theorem run_scan_of_error (walk : s.walk fs = .ok w) (h : w.found = .error f) :
    (Request.scan s).run fs colour = ⟨1, [], failureText f.chain⟩ := by
  have images : w.imageFiles = .error f := Walk.imageFiles_eq_error_iff.mpr h
  have broken : (runScan fs s).run.run {} = (.error (.audit f), {}) := by
    rw [runScan, walk, Console.run_bind_of_ok (Console.run_require_ok _ _), images,
      Console.run_bind_of_error (Console.run_require_error _ _)]
  exact outcome_of_run_error broken

/-- The same root and the same patterns make the same walk. -/
theorem Settings.walk_eq {t : Settings} (root : t.rootOrHere = s.rootOrHere)
    (patterns : t.excludes = s.excludes) (hidden : t.noDefaultExcludes = s.noDefaultExcludes) :
    t.walk fs = s.walk fs := by
  rw [Settings.walk, Settings.walk, root, patterns, hidden]

theorem Settings.report_of_walk (walk : s.walk fs = .ok w) : s.report fs = w.audit := by
  rw [Settings.report, walk]
  rfl

end CommandLine

/-! ### What decides -/

namespace Walk

open CommandLine

variable {w : Walk}

/-- **Only the root can make an audit fail**, where the system takes the names
and paths below it.  The audit has a result exactly if the root leads to a
directory or a file; else it fails at the root, and not at a source.  A scan of
the same project then ends as the audit in text does.  It writes what the audit
goes through: as many image files, and in all formats as many sources. -/
theorem audit_fails_only_at_root (tree : IsTree w.fs.top) (fits : w.Fits) :
    ((∃ r, w.audit = .ok r) ↔
      (∃ here listing, w.fs.lookup .follow w.root = .ok (.directory here listing)) ∨
      ∃ l contents, w.fs.lookup .follow w.root = .ok (.file l contents)) ∧
    (∀ f, w.audit = .error f → ∃ cause, w.fs.lookup .follow w.root = .error cause ∧
      f = .walk w.root w.root cause ∧
      f.chain.head? = some ("Failed to walk ".toList ++ Utf8.decodeLossy w.root)) ∧
    ∀ (s t : Settings) (colour : Bool) (words words' : List Bytes),
      s.walk w.fs = .ok w → Request.ofWords words = .ok (.audit s) → s.json = false →
      Request.ofWords words' = .ok (.scan t) → t.rootOrHere = s.rootOrHere →
      t.excludes = s.excludes → t.noDefaultExcludes = s.noDefaultExcludes →
      ((runWords w.fs colour words').status = 0 ↔ (runWords w.fs colour words).status = 0) ∧
      ∀ r, w.audit = .ok r → ∃ images sources,
        (runWords w.fs colour words').output = scanText images sources ∧
        images.length = r.totals.imageFiles ∧
        (SourceFormat.all.map fun format => (sources format).length).sum = r.totals.sources := by
  cases root : w.fs.lookup .follow w.root with
  | error cause =>
    have fails := audit_of_error (found_of_error root)
    refine ⟨?_, ?_, ?_⟩
    · rw [fails]
      exact iff_of_false nofun nofun
    · intro f failed
      rw [fails] at failed
      cases failed
      exact ⟨cause, rfl, rfl, rfl⟩
    · intro s t colour words words' walk audit text scan hroot hpatterns hidden
      have walk' : t.walk w.fs = .ok w := (Settings.walk_eq hroot hpatterns hidden).trans walk
      have report := (Settings.report_of_walk walk).trans fails
      rw [runWords_of_ofWords scan, runWords_of_ofWords audit, run_audit_of_error report,
        run_scan_of_error walk' (found_of_error root)]
      refine ⟨Iff.rfl, ?_⟩
      intro r succeeded
      rw [fails] at succeeded
      cases succeeded
  | ok p =>
    obtain ⟨found, h, readable⟩ := exists_readable_of_lookup tree fits root
    have succeeds := audit_of_readable h readable
    refine ⟨?_, ?_, ?_⟩
    · refine iff_of_true ⟨_, succeeds⟩ ?_
      rcases FileSystem.directory_or_file_of_lookup root with
        ⟨here, listing, rfl⟩ | ⟨l, contents, rfl⟩
      · exact .inl ⟨here, listing, rfl⟩
      · exact .inr ⟨l, contents, rfl⟩
    · intro f failed
      rw [succeeds] at failed
      cases failed
    · intro s t colour words words' walk audit text scan hroot hpatterns hidden
      have walk' : t.walk w.fs = .ok w := (Settings.walk_eq hroot hpatterns hidden).trans walk
      have report := (Settings.report_of_walk walk).trans succeeds
      let c := Collection.ofFound h readable
      rw [runWords_of_ofWords scan, runWords_of_ofWords audit, run_audit_text report text,
        run_scan walk' c.images_found c.sources_found]
      refine ⟨Iff.rfl, ?_⟩
      intro r succeeded
      rw [succeeds] at succeeded
      cases succeeded
      rw [Survey.report_eq, Survey.totals_eq]
      exact ⟨c.images, c.sources, rfl, rfl, List.length_flatMap.symm⟩

end Walk

/-- A project whose sources are two files, one of them no text, and links: to a
file, to a directory, to nothing and to itself. -/
def brokenLinks : Walk where
  fs := {
    top := [.directory (Utf8.encode "p".toList) [
      .file (Utf8.encode "A.m".toList) (Utf8.encode "imageNamed:@\"ghost\"".toList),
      .link (Utf8.encode "B.m".toList) (Utf8.encode "A.m".toList),
      .link (Utf8.encode "C.m".toList) (Utf8.encode "..".toList),
      .link (Utf8.encode "D.m".toList) (Utf8.encode "q.m".toList),
      .link (Utf8.encode "E.m".toList) (Utf8.encode "E.m".toList),
      .file (Utf8.encode "F.swift".toList) [0xFF, 0x00]]]
    workingDirectory := [Utf8.encode "p".toList] }
  exclusion := .standard
  root := Utf8.encode ".".toList

open CommandLine in
/-- The audit has a result, for the links that lead to no file are not found;
where the root is one of them, it fails at the root. -/
theorem audit_of_brokenLinks :
    let q : Walk := { brokenLinks with root := Utf8.encode "D.m".toList }
    (IsTree brokenLinks.fs.top ∧ brokenLinks.Fits ∧ (∃ r, brokenLinks.audit = .ok r) ∧
      (run brokenLinks.fs false ["scan".toList]).status = 0) ∧
    q.Fits ∧ ∃ f, q.audit = .error f ∧ f.chain.head? = some "Failed to walk D.m".toList := by
  intro q
  have tree : IsTree brokenLinks.fs.top := by decide
  have fits : brokenLinks.Fits := by
    intro here listing root
    have found : brokenLinks.fs.lookup .follow brokenLinks.root = .ok (.directory _ _) := rfl
    rw [found] at root
    cases root
    exact ⟨.of_census (by decide), .of_census (by decide)⟩
  have missing : q.fs.lookup .follow q.root = .error .notFound := by rfl
  have fits' : q.Fits := by
    intro here listing root
    rw [missing] at root
    cases root
  obtain ⟨succeeds, _, ends⟩ := Walk.audit_fails_only_at_root tree fits
  obtain ⟨_, fails, _⟩ := Walk.audit_fails_only_at_root (w := q) tree fits'
  have audited : ∃ r, brokenLinks.audit = .ok r := succeeds.mpr (.inl ⟨_, _, rfl⟩)
  have walk : ({} : Settings).walk brokenLinks.fs = .ok brokenLinks := by rfl
  have asked : Request.ofWords [] = .ok (.audit {}) := by rfl
  have scan : Request.ofWords [bytesOf "scan"] = .ok (.scan {}) := by rfl
  have status : (runWords brokenLinks.fs false []).status = 0 := by
    rw [runWords_of_ofWords asked, status_text_iff rfl, Settings.report_of_walk walk]
    exact audited
  have same := (ends {} {} false [] [bytesOf "scan"] walk asked rfl scan rfl rfl rfl).1
  have failed := Walk.audit_of_error (Walk.found_of_error missing)
  obtain ⟨_, _, _, told⟩ := fails _ failed
  exact ⟨⟨tree, fits, audited, same.mpr status⟩, fits', _, failed, told⟩

end AssetAudit

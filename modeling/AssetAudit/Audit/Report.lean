/-
AssetAudit/Audit/Report.lean

The result of an audit: what was found wrong, and how much was looked at.

An audit goes through a project once.  Whatever it meets is added to the
catalogue and counted in the same step (`Walk.collect`), so a count stands for
what was added so far and for nothing else.  The checks come when all is met.
-/
import AssetAudit.Audit.Survey
import AssetAudit.Finding

namespace AssetAudit

/-- How much an audit has looked at. -/
structure Totals where
  imageFiles : Nat := 0
  sources : Nat := 0
  references : Nat := 0
  bundles : Nat := 0
  findings : Nat := 0
  deriving DecidableEq, Repr

/-! ### Collecting -/

/-- How far an audit has come: the images met so far, and how much was looked
at. -/
structure Progress where
  catalogue : Catalogue := .empty
  totals : Totals := {}

namespace Progress

/-- An image file is met. -/
def addFile (p : Progress) (file : Bytes) : Progress where
  catalogue := p.catalogue.addFile file
  totals := { p.totals with imageFiles := p.totals.imageFiles + 1 }

/-- A source is met. -/
def addSource (p : Progress) : Progress :=
  { p with totals := { p.totals with sources := p.totals.sources + 1 } }

/-- A mention is met. -/
def addMention (p : Progress) (m : SourceMention) : Progress where
  catalogue := p.catalogue.addMention m.name m.source
  totals := { p.totals with references := p.totals.references + 1 }

/-- All has been met, so the images are counted. -/
def close (p : Progress) : Progress :=
  { p with totals := { p.totals with bundles := p.catalogue.size } }

end Progress

namespace Walk

/-- One source of a format, and what it mentions. -/
def collectSource (w : Walk) (format : SourceFormat) (p : Progress) (file : Bytes) :
    Except Failure Progress := do
  let mentions ← mentionsIn w.fs w.root file format
  return mentions.foldl Progress.addMention p.addSource

/-- The sources of a format, one by one. -/
def collectFormat (w : Walk) (p : Progress) (format : SourceFormat) : Except Failure Progress := do
  let files ← w.sourceFiles format
  files.foldlM (w.collectSource format) p

/-- What is met in the project of the walk: the image files, then the sources of
one format after the other. -/
def collect (w : Walk) : Except Failure Progress := do
  let images ← w.imageFiles
  let p ← SourceFormat.all.foldlM w.collectFormat (images.foldl Progress.addFile {})
  return p.close

end Walk

/-- What is met where a survey is gone through. -/
def Survey.progress (s : Survey) : Progress :=
  let files := s.images.foldl Progress.addFile {}
  let sources := s.sources.foldl (fun p _ => p.addSource) files
  (s.mentions.foldl Progress.addMention sources).close

/-- What a survey has looked at, before anything is checked. -/
def Survey.totals (s : Survey) : Totals :=
  s.progress.totals

/-! ### Reports -/

/-- The result of an audit. -/
structure Report where
  findings : List Finding
  totals : Totals
  deriving DecidableEq, Repr

/-- The report on what was met. -/
def Progress.report (p : Progress) : Report :=
  let findings := p.catalogue.findings
  ⟨findings, { p.totals with findings := findings.length }⟩

/-- The report on a survey. -/
def Survey.report (s : Survey) : Report :=
  s.progress.report

/-- The report on the project of the walk. -/
def Walk.audit (w : Walk) : Except Failure Report :=
  w.collect.map Progress.report

/-! ### As JSON -/

/-- The totals as JSON. -/
def Totals.toJson (t : Totals) : Json :=
  .object [("image_files".toList, .count t.imageFiles),
    ("source_files_scanned".toList, .count t.sources),
    ("references".toList, .count t.references),
    ("bundles".toList, .count t.bundles),
    ("findings".toList, .count t.findings)]

/-- The report as JSON: the findings, then the totals. -/
def Report.toJson (r : Report) : Except ReportError Json := do
  let findings ← findingsJson r.findings
  return .object [("findings".toList, findings), ("diagnostics".toList, r.totals.toJson)]

end AssetAudit

/-
AssetAudit/CommandLine/Run.lean

The program: from the words of a command line to what it writes and the
status it ends with.

A run ends with status 0 whatever the audit finds wrong, with 1 if it breaks
off, and with 2 if the command line is refused.
-/
import AssetAudit.CommandLine.Console
import AssetAudit.CommandLine.Help

namespace AssetAudit.CommandLine

/-- The walk that settings ask for. -/
def Settings.walk (s : Settings) (fs : FileSystem) : Except Failure Walk := do
  let exclusion ← Exclusion.ofPatterns s.excludes !s.noDefaultExcludes
  return ⟨fs, exclusion, s.rootOrHere⟩

/-! ### The audit -/

/-- The messages on how much was looked at. -/
def totalsText (colour : Bool) (t : Totals) : Text :=
  let info := paint colour .blue "info:".toList
  info ++ " Images: ".toList ++ decimal t.imageFiles ++ " files in ".toList ++
    decimal t.bundles ++ " bundles\n".toList ++
  info ++ " Sources: ".toList ++ decimal t.sources ++ " files, ".toList ++
    decimal t.references ++ " references\n".toList

/-- The message on how many findings there are. -/
def summaryText (colour : Bool) (n : Nat) : Text :=
  if n = 0 then paint colour .green "ok:".toList ++ " No image problems found\n".toList
  else paint colour .yellow "Found".toList ++ [' '] ++ decimal n ++ " finding(s)\n".toList

/-- Audits a project and writes the report. -/
def runAudit (fs : FileSystem) (colour : Bool) (s : Settings) : Console Unit := do
  let walk ← Console.require (s.walk fs)
  let report ← Console.require walk.audit
  if s.verbose then Console.note (totalsText colour report.totals)
  if s.json then
    let json ← Console.requireWritten report.toJson
    Console.print (json.pretty ++ ['\n'])
  else
    report.findings.forM fun f => Console.print (f.line ++ ['\n'])
    if s.verbose then Console.note (summaryText colour report.findings.length)

/-! ### The scan -/

/-- Writes a list of files of some kind under a heading. -/
def printFiles (kind : Text) (files : List Bytes) : Console Unit := do
  Console.print ("Would scan ".toList ++ decimal files.length ++ [' '] ++ kind ++
    " files:\n".toList)
  files.forM fun f => Console.print ("  ".toList ++ Utf8.decodeLossy f ++ ['\n'])

/-- Writes which files an audit would read. -/
def runScan (fs : FileSystem) (s : Settings) : Console Unit := do
  let walk ← Console.require (s.walk fs)
  let images ← Console.require walk.imageFiles
  printFiles "image".toList images
  SourceFormat.all.forM fun format => do
    let files ← Console.require (walk.sourceFiles format)
    printFiles (['/'].intercalate format.extensions) files

/-! ### The program -/

/-- What can be seen of a run when it has ended. -/
structure Outcome where
  status : Nat
  output : Text
  messages : Text
  deriving DecidableEq, Repr

/-- Runs a part of the program to its end. -/
def Console.outcome (c : Console Unit) : Outcome :=
  match c.run.run {} with
  | (.ok (), s) => ⟨0, s.output, s.messages⟩
  | (.error a, s) => ⟨1, s.output, s.messages ++ failureText a.chain⟩

/-- Does what is asked for. -/
def Request.run (fs : FileSystem) (colour : Bool) : Request → Outcome
  | .audit s => (runAudit fs colour s).outcome
  | .scan s => (runScan fs s).outcome
  | .help topic => ⟨0, helpText topic, []⟩
  | .version => ⟨0, versionText, []⟩

/-- Runs the program on the words of a command line. -/
def runWords (fs : FileSystem) (colour : Bool) (words : List Bytes) : Outcome :=
  match Request.ofWords words with
  | .ok request => request.run fs colour
  | .error e => ⟨2, [], e.message⟩

/-- Runs the program on words that are text. -/
def run (fs : FileSystem) (colour : Bool) (words : List Text) : Outcome :=
  runWords fs colour (words.map Utf8.encode)

end AssetAudit.CommandLine

/-
AssetAudit/CommandLine/Console.lean

A run of the program, as far as it can be seen from outside.

A run writes to two streams, one for its results and one for messages about
the run.  It may break off; what was written before stays written.
-/
import AssetAudit.Audit.Report

namespace AssetAudit.CommandLine

/-- What has been written. -/
structure Streams where
  /-- The results. -/
  output : Text := []
  /-- Messages about the run. -/
  messages : Text := []
  deriving DecidableEq, Repr

/-- Why a run breaks off. -/
inductive Abort where
  /-- The audit has no result. -/
  | audit (f : Failure)
  /-- The report cannot be written as JSON. -/
  | report (e : ReportError)
  deriving DecidableEq, Repr

/-- The messages of an abort, from the outermost inwards. -/
def Abort.chain : Abort → List Text
  | .audit f => f.chain
  | .report e => [e.message]

/-- A part of a run: it writes, and comes to a result or breaks off. -/
abbrev Console := ExceptT Abort (StateM Streams)

namespace Console

/-- Writes results. -/
def print (t : Text) : Console Unit :=
  modify fun s => { s with output := s.output ++ t }

/-- Writes a message. -/
def note (t : Text) : Console Unit :=
  modify fun s => { s with messages := s.messages ++ t }

/-- Goes on with a result of the audit, or breaks off. -/
def require {α : Type} (r : Except Failure α) : Console α :=
  match r with
  | .ok a => pure a
  | .error f => throw (.audit f)

/-- Goes on with what a report holds, or breaks off. -/
def requireWritten {α : Type} (r : Except ReportError α) : Console α :=
  match r with
  | .ok a => pure a
  | .error e => throw (.report e)

@[simp] theorem run_print (t : Text) (s : Streams) :
    (print t).run.run s = (.ok (), { s with output := s.output ++ t }) := rfl

@[simp] theorem run_require_ok {α : Type} (a : α) (s : Streams) :
    (require (.ok a)).run.run s = (.ok a, s) := rfl

@[simp] theorem run_require_error {α : Type} (f : Failure) (s : Streams) :
    (require (.error f) : Console α).run.run s = (.error (.audit f), s) := rfl

end Console

/-! ### Colour -/

/-- The colours of words in messages, by their numbers on a terminal. -/
inductive Colour where
  | green
  | yellow
  | blue

/-- The number of a colour. -/
def Colour.number : Colour → Nat
  | .green => 32
  | .yellow => 33
  | .blue => 34

/-- The text in bold and in colour, if colour is wanted. -/
def paint (wanted : Bool) (c : Colour) (t : Text) : Text :=
  if wanted then
    "\x1b[1;".toList ++ decimal c.number ++ ['m'] ++ t ++ "\x1b[0m".toList
  else t

/-! ### Failures -/

/-- The text with further lines indented by so many blanks. -/
def indentLines (blanks : Nat) (t : Text) : Text :=
  t.flatMap fun c => if c = '\n' then '\n' :: List.replicate blanks ' ' else [c]

/-- The causes of a failure, numbered from `n`, each on lines of its own. -/
def numberedCauses (n : Nat) : List Text → Text
  | [] => []
  | c :: rest =>
    let number := decimal n
    List.replicate (5 - number.length) ' ' ++ number ++ ": ".toList ++ indentLines 7 c ++ ['\n'] ++
      numberedCauses (n + 1) rest

/-- The chain of a failure as it is told at the end of a run.  Causes are
numbered if there are several. -/
def failureText : List Text → Text
  | [] => "Error: \n".toList
  | [m] => "Error: ".toList ++ m ++ ['\n']
  | [m, c] =>
    "Error: ".toList ++ m ++ "\n\nCaused by:\n".toList ++ List.replicate 4 ' ' ++
      indentLines 4 c ++ ['\n']
  | m :: causes =>
    "Error: ".toList ++ m ++ "\n\nCaused by:\n".toList ++ numberedCauses 0 causes

end AssetAudit.CommandLine

/-
AssetAudit/Glob/Match.lean

Matching a text against a pattern.

A pattern has to match the whole text.  A slash is a character like any
other, except that a run of whole directories ends behind one; it may also
take up the rest of the text.

A failed attempt is told apart in two kinds.  If a character does not fit
(`mismatch`), a run of characters in front may still be made longer; if the
text ends before the pattern does (`exhausted`), a longer run leaves even
less, and no further attempt is made.  So the number of attempts does not
grow with every run in the pattern.
-/
import AssetAudit.Glob.Pattern

namespace AssetAudit.Glob

/-- How an attempt at a match ends. -/
inductive Outcome where
  /-- The whole text fits the whole pattern. -/
  | matched
  /-- A character does not fit, or some are left. -/
  | mismatch
  /-- The text ends before the pattern does. -/
  | exhausted
  deriving DecidableEq, Repr

/-- The attempt on the text, or on the text with ever more of its front taken
off. -/
def anySuffix (attempt : Text → Outcome) : Text → Outcome
  | [] => attempt []
  | c :: cs =>
    match attempt (c :: cs) with
    | .mismatch => anySuffix attempt cs
    | o => o

/-- The attempt behind the first slash of the text, or a later one, or at its
end. -/
def behindSlash (attempt : Text → Outcome) : Text → Outcome
  | [] => attempt []
  | c :: cs =>
    if c = '/' then
      match attempt cs with
      | .mismatch => behindSlash attempt cs
      | o => o
    else behindSlash attempt cs

/-- One character that passes the test, then the attempt on what follows. -/
def oneChar (test : Char → Bool) (attempt : Text → Outcome) : Text → Outcome
  | [] => .exhausted
  | c :: cs => if test c then attempt cs else .mismatch

/-- The attempt to match a text against a run of tokens. -/
def attempt : List Token → Text → Outcome
  | [], t => if t.isEmpty then .matched else .mismatch
  | .literal c :: ts, t => oneChar (· == c) (attempt ts) t
  | .any :: ts, t => oneChar (fun _ => true) (attempt ts) t
  | .within rs :: ts, t => oneChar (fun c => rs.any (·.holds c)) (attempt ts) t
  | .except rs :: ts, t => oneChar (fun c => !rs.any (·.holds c)) (attempt ts) t
  | .run :: ts, t => anySuffix (attempt ts) t
  | .directories :: ts, t =>
    match attempt ts t with
    | .mismatch => behindSlash (attempt ts) t
    | o => o

/-- The text matches the pattern. -/
def fits (tokens : List Token) (t : Text) : Bool :=
  attempt tokens t == .matched

end AssetAudit.Glob

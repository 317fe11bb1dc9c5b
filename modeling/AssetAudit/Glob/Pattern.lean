/-
AssetAudit/Glob/Pattern.lean

Patterns for the paths to leave out of a scan.

A pattern is read from left to right into tokens:

* `?` is any one character;
* `*` is any run of characters, and `**/` any run of whole directories, as is
  `**` at the end; two stars must make up a whole component;
* `[abc]`, `[a-z]` and `[!…]` are one character within, or outside, a class;
  a `]` right after the opening bracket belongs to the class;
* any other character is itself.

A pattern that cannot be read has a fault at a place, counted in characters
from the start of the pattern.
-/
import AssetAudit.Text.Decimal

namespace AssetAudit.Glob

/-! ### Tokens -/

/-- The characters from one to another, both included. -/
structure CharRange where
  first : Char
  last : Char
  deriving DecidableEq, Repr

/-- The character lies in the range. -/
def CharRange.holds (r : CharRange) (c : Char) : Bool :=
  r.first ≤ c && c ≤ r.last

/-- An element of a pattern. -/
inductive Token where
  /-- The character itself. -/
  | literal (c : Char)
  /-- Any one character. -/
  | any
  /-- One character of a class. -/
  | within (ranges : List CharRange)
  /-- One character that is not of a class. -/
  | except (ranges : List CharRange)
  /-- Any run of characters. -/
  | run
  /-- Any run of whole directories. -/
  | directories
  deriving DecidableEq, Repr

/-! ### Faults -/

/-- What is wrong with a pattern. -/
inductive FaultKind where
  /-- Three or more stars in a row. -/
  | manyStars
  /-- Two stars that are not a component of their own. -/
  | partialComponent
  /-- A class that is never closed. -/
  | openClass
  deriving DecidableEq, Repr

/-- What is wrong with a pattern, and at which character. -/
structure Fault where
  position : Nat
  kind : FaultKind
  deriving DecidableEq, Repr

/-- The fault in words. -/
def FaultKind.message : FaultKind → Text
  | .manyStars => "wildcards are either regular `*` or recursive `**`".toList
  | .partialComponent => "recursive wildcards must form a single path component".toList
  | .openClass => "invalid range pattern".toList

/-- The fault in words, with its place. -/
def Fault.message (f : Fault) : Text :=
  "Pattern syntax error near position ".toList ++ decimal f.position ++ ": ".toList ++
    f.kind.message

/-! ### Classes -/

/-- The ranges that the inside of a class stands for. -/
def rangesOf : Text → List CharRange
  | a :: '-' :: b :: rest => ⟨a, b⟩ :: rangesOf rest
  | a :: rest => ⟨a, a⟩ :: rangesOf rest
  | [] => []

/-- The class that starts behind an opening bracket, and how many characters
it takes up there, its closing bracket included. -/
def classAt : Text → Option (Token × Nat)
  | '!' :: c :: rest =>
    let inside := rest.takeWhile (· != ']')
    if inside.length = rest.length then none
    else some (.except (rangesOf (c :: inside)), inside.length + 3)
  | c :: rest =>
    if c = '!' then none
    else
      let inside := rest.takeWhile (· != ']')
      if inside.length = rest.length then none
      else some (.within (rangesOf (c :: inside)), inside.length + 2)
  | [] => none

/-! ### Stars -/

/-- Where a run of stars stands: what comes before and behind it decides
whether it makes up a whole component. -/
inductive Before where
  /-- The pattern starts here, or a slash precedes. -/
  | boundary
  /-- Another character precedes. -/
  | other
  deriving DecidableEq, Repr

/-- What a run of `n` stars at `position` stands for, and how many characters
behind it belong to it too.  `rest` is the pattern behind the run. -/
def starsAt (position n : Nat) (before : Before) (rest : Text) : Except Fault (Token × Nat) :=
  if n = 1 then .ok (.run, 0)
  else if n = 2 then
    match before, rest with
    | .boundary, [] => .ok (.directories, 0)
    | .boundary, '/' :: _ => .ok (.directories, 1)
    | .boundary, _ => .error ⟨position + 2, .partialComponent⟩
    | .other, _ => .error ⟨position - 1, .partialComponent⟩
  else .error ⟨position + 2, .manyStars⟩

/-! ### Reading -/

/-- The tokens of the pattern from `position` on, once `skip` more characters
have been passed over.  `before` tells what precedes. -/
def tokensFrom : (position skip : Nat) → Before → Text → Except Fault (List Token)
  | _, _, _, [] => .ok []
  | position, skip + 1, _, c :: cs =>
    tokensFrom (position + 1) skip (if c = '/' then .boundary else .other) cs
  | position, 0, before, c :: cs =>
    let after : Before := if c = '/' then .boundary else .other
    if c = '?' then (.any :: ·) <$> tokensFrom (position + 1) 0 after cs
    else if c = '*' then
      let more := (cs.takeWhile (· == '*')).length
      match starsAt position (more + 1) before (cs.drop more) with
      | .error fault => .error fault
      | .ok (token, behind) => (token :: ·) <$> tokensFrom (position + 1) (more + behind) after cs
    else if c = '[' then
      match classAt cs with
      | none => .error ⟨position, .openClass⟩
      | some (token, length) => (token :: ·) <$> tokensFrom (position + 1) length after cs
    else (.literal c :: ·) <$> tokensFrom (position + 1) 0 after cs

/-- The tokens of a pattern, or its first fault. -/
def parse (pattern : Text) : Except Fault (List Token) :=
  tokensFrom 0 0 .boundary pattern

end AssetAudit.Glob

/-
AssetAudit/Walk/Exclusion.lean

What a walk leaves out.

An entry below the root is left out if its name begins with a dot, unless
hidden entries are wanted, or if one of the given patterns matches its name
or its path from the root.  A name is matched as it is shown, with
replacement characters where it is not UTF-8; a path that is not UTF-8
matches nothing.
-/
import AssetAudit.Audit.Failure
import AssetAudit.Glob.Match

namespace AssetAudit

/-- What a walk leaves out. -/
structure Exclusion where
  /-- The patterns of what to leave out. -/
  patterns : List (List Glob.Token)
  /-- Entries whose names begin with a dot are left out too. -/
  hidden : Bool

namespace Exclusion

/-- What is left out unless something else is asked for. -/
def standard : Exclusion := ⟨[], true⟩

/-- A pattern read, or the failure to read it. -/
def readPattern (pattern : Text) : Except Failure (List Glob.Token) :=
  match Glob.parse pattern with
  | .ok tokens => .ok tokens
  | .error fault => .error (.badPattern pattern fault)

/-- The exclusion that patterns describe.  If some cannot be read, the first
of them is reported. -/
def ofPatterns (patterns : List Text) (hidden : Bool) : Except Failure Exclusion := do
  let read ← patterns.mapM readPattern
  return ⟨read, hidden⟩

/-- The name begins with a dot. -/
def isHidden (name : Bytes) : Bool :=
  (Utf8.decodeLossy name).head? == some '.'

/-- The path from the root matches the pattern. -/
def fitsPath (pattern : List Glob.Token) (path : Bytes) : Bool :=
  match Utf8.decode? path with
  | some t => Glob.fits pattern t
  | none => false

/-- The entry of that name, with that path from the root, is left out. -/
def leavesOut (x : Exclusion) (name path : Bytes) : Bool :=
  (x.hidden && isHidden name) ||
    x.patterns.any fun p => Glob.fits p (Utf8.decodeLossy name) || fitsPath p path

end Exclusion

end AssetAudit

/-
AssetAudit/Audit/Failure.lean

Why an audit comes to no result.

A failure is told as a chain of messages, from what was being done inwards to
what stood in the way.
-/
import AssetAudit.FileSystem.Lookup
import AssetAudit.Glob.Pattern
import AssetAudit.Text.Utf8

namespace AssetAudit

/-- Why an audit comes to no result. -/
inductive Failure where
  /-- A pattern of what to leave out cannot be read. -/
  | badPattern (pattern : Text) (fault : Glob.Fault)
  /-- The project at `root` cannot be gone through, because of `path`. -/
  | walk (root path : Bytes) (cause : LookupError)
  /-- A source file cannot be read. -/
  | read (file : Bytes) (cause : LookupError)
  deriving DecidableEq, Repr

namespace Failure

/-- The messages of a failure, from the outermost inwards. -/
def chain : Failure → List Text
  | .badPattern pattern fault =>
    ["Invalid exclude pattern '".toList ++ pattern ++ ['\''], fault.message]
  | .walk root path cause =>
    ["Failed to walk ".toList ++ Utf8.decodeLossy root,
      "IO error for operation on ".toList ++ Utf8.decodeLossy path ++ ": ".toList ++
        cause.message,
      cause.message]
  | .read file cause => ["Failed to read ".toList ++ Utf8.decodeLossy file, cause.message]

end Failure

end AssetAudit

/-
AssetAudit/FileSystem/Tree.lean

Trees of directories, files and symbolic links.

A directory lists its entries, each with a name; a name is a string of bytes.
A `Location` says where a directory or file is by the names that lead there
from the top, and no link is passed on the way.  A `FileSystem` is the
listing of the top directory together with the location that relative paths
start from.

The order of a listing carries no meaning, and no name should be listed
twice; where one is, the first entry counts.
-/
import AssetAudit.Text.CodeUnit

namespace AssetAudit

/-- An entry of a directory. -/
inductive Entry where
  | file (name : Bytes) (contents : Bytes)
  /-- A symbolic link, whose target is a path. -/
  | link (name : Bytes) (target : Bytes)
  | directory (name : Bytes) (listing : List Entry)

/-- The name of an entry. -/
def Entry.name : Entry → Bytes
  | .file n _ => n
  | .link n _ => n
  | .directory n _ => n

/-- The entry of a name in a listing. -/
def entryOf? (listing : List Entry) (name : Bytes) : Option Entry :=
  listing.find? (·.name == name)

/-- The names that lead from the top directory to a place. -/
abbrev Location := List Bytes

/-- The listing of the directory at a location below one with the listing
`listing`. -/
def listingAt? (listing : List Entry) : Location → Option (List Entry)
  | [] => some listing
  | n :: rest =>
    match entryOf? listing n with
    | some (.directory _ inner) => listingAt? inner rest
    | _ => none

/-- A tree, and the directory in it that relative paths start from. -/
structure FileSystem where
  /-- The listing of the top directory. -/
  top : List Entry
  /-- Where relative paths start. -/
  workingDirectory : Location

@[simp] theorem listingAt?_nil (listing : List Entry) : listingAt? listing [] = some listing := rfl

/-- A directory is reached step by step. -/
theorem listingAt?_append (listing : List Entry) (a b : Location) :
    listingAt? listing (a ++ b) = (listingAt? listing a).bind (listingAt? · b) := by
  induction a generalizing listing with
  | nil => rfl
  | cons n rest ih =>
    simp only [List.cons_append, listingAt?]
    split
    · exact ih _
    · rfl

end AssetAudit

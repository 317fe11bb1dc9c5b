/-
AssetAudit/FileSystem/Edit.lean

Changing a tree by paths.

Writing a file, making a directory and making a link all make the
directories on the way to it that are not there.  A file is written through a
link at its path; a link is only made where nothing is.  Removing takes away
what stands at the path itself, a link and not its target, a directory with
all that it holds.  A change that cannot be made leaves the tree as it is.
-/
import AssetAudit.FileSystem.Lookup

namespace AssetAudit

/-! ### Listings -/

/-- The listing with an entry added, in the place of one of the same name if
there is one. -/
def putEntry (e : Entry) : List Entry → List Entry
  | [] => [e]
  | d :: rest => if d.name = e.name then e :: rest else d :: putEntry e rest

/-- The listing without the entry of a name. -/
def dropEntry (name : Bytes) (listing : List Entry) : List Entry :=
  listing.filter (·.name != name)

/-- The listing with a directory's listing changed, where the directory is
at a location below. -/
def changeAt (change : List Entry → List Entry) : Location → List Entry → List Entry
  | [], listing => change listing
  | n :: rest, listing =>
    listing.map fun e =>
      match e with
      | .directory m inner =>
        if m = n then .directory m (changeAt change rest inner) else .directory m inner
      | e => e

namespace FileSystem

/-- The tree with a directory's listing changed. -/
def change (fs : FileSystem) (location : Location) (f : List Entry → List Entry) : FileSystem :=
  { fs with top := changeAt f location fs.top }

/-! ### Directories on the way -/

/-- The tree with a directory at the path, if nothing is there and its parent
is. -/
def makeOne (fs : FileSystem) (path : Bytes) : FileSystem :=
  match fs.locate .follow path with
  | .ok (.vacant parent name) => fs.change parent (putEntry (.directory name []))
  | _ => fs

/-- The path as far as the segments `rest`, one path for each of them;
`front` is what has been passed. -/
def pathsAlong (front : Bytes) : (rest : List Bytes) → List Bytes
  | [] => []
  | s :: rest => (front ++ s) :: pathsAlong (front ++ s ++ [0x2F]) rest

/-- The tree with directories at the path and on the way to it. -/
def makeDirectory (fs : FileSystem) (path : Bytes) : FileSystem :=
  (pathsAlong [] (Path.segments path)).foldl makeOne fs

/-- The tree with directories on the way to the path. -/
def makeParents (fs : FileSystem) (path : Bytes) : FileSystem :=
  (pathsAlong [] (Path.segments path).dropLast).foldl makeOne fs

/-! ### Files and links -/

/-- The tree with a file at the path that holds `contents`. -/
def writeFile (fs : FileSystem) (path contents : Bytes) : FileSystem :=
  let fs := fs.makeParents path
  match fs.locate .follow path with
  | .ok (.vacant parent name) => fs.change parent (putEntry (.file name contents))
  | .ok (.file location _) =>
    match location.getLast? with
    | some name => fs.change location.dropLast (putEntry (.file name contents))
    | none => fs
  | _ => fs

/-- The tree with a symbolic link at the path. -/
def makeLink (fs : FileSystem) (path target : Bytes) : FileSystem :=
  let fs := fs.makeParents path
  match fs.locate .keep path with
  | .ok (.vacant parent name) => fs.change parent (putEntry (.link name target))
  | _ => fs

/-- The tree without what is at the path. -/
def remove (fs : FileSystem) (path : Bytes) : FileSystem :=
  match fs.locate .keep path with
  | .ok (.file location _) | .ok (.link location _) | .ok (.directory location _) =>
    match location.getLast? with
    | some name => fs.change location.dropLast (dropEntry name)
    | none => fs
  | _ => fs

/-- The file system of nothing but empty directories down to the one that
relative paths start from. -/
def ofWorkingDirectory (location : Location) : FileSystem where
  top := location.foldr (fun n inner => [.directory n inner]) []
  workingDirectory := location

end FileSystem

end AssetAudit

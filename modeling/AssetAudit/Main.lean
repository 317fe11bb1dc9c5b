/-
AssetAudit/Main.lean

The program on the files of a real system.

Before anything is decided, what the project holds is read into memory: the
way to the root with the links on it, everything below the root, and the
files that links lead to.  Only what names an image is read of a file, so
files that are no source are taken in without their contents.  The rest is
the run on that tree.
-/
import AssetAudit.CommandLine.Run
import AssetAudit.FileSystem.Edit

namespace AssetAudit

/-- The real path of what is at a path, if anything is. -/
def realPath? (path : String) : IO (Option String) := do
  try
    return some (← IO.FS.realPath path).toString
  catch _ => return none

/-- The kind of what is at a path, once links are followed, if anything is. -/
def kindAt? (path : String) : IO (Option IO.FS.FileType) := do
  try
    return some (← (System.mkFilePath [path]).metadata).type
  catch _ => return none

/-- The kind of what is at a path itself, if anything is. -/
def ownKindAt? (path : String) : IO (Option IO.FS.FileType) := do
  try
    return some (← (System.mkFilePath [path]).symlinkMetadata).type
  catch _ => return none

/-- What a file holds, if it is a source by its name. -/
def sourceContents (name path : String) : IO Bytes := do
  if SourceFormat.all.any (·.isOf name.toList) then
    return (← IO.FS.readBinFile path).toList
  else return []

/-- What a directory holds, and the files elsewhere that links in it lead to,
each with its real path. -/
partial def load (directory : String) : IO (List Entry × List (String × Bytes)) := do
  let mut entries := []
  let mut others := []
  for e in ← (System.mkFilePath [directory]).readDir do
    let path := directory ++ "/" ++ e.fileName
    let name := bytesOf e.fileName
    match ← ownKindAt? path with
    | some .dir =>
      let (inner, more) ← load path
      entries := .directory name inner :: entries
      others := more ++ others
    | some .file => entries := .file name (← sourceContents e.fileName path) :: entries
    | some .symlink =>
      match ← realPath? path with
      | none => entries := .link name name :: entries
      | some target =>
        entries := .link name (bytesOf target) :: entries
        if (← kindAt? path) == some .file then
          others := (target, ← sourceContents e.fileName path) :: others
    | _ => pure ()
  return (entries, others)

/-- The tree with the links that a path leads over, and the directories. -/
def loadWay (fs : FileSystem) (path : String) : IO FileSystem := do
  let mut fs := fs
  for front in pathsOf path do
    match ← ownKindAt? front, ← realPath? front with
    | some .symlink, some target =>
      if (← kindAt? front) == some .dir then
        fs := fs.makeDirectory (bytesOf target)
      fs := fs.makeLink (bytesOf front) (bytesOf target)
    | some .symlink, none => fs := fs.makeLink (bytesOf front) (bytesOf front)
    | some .dir, _ => fs := fs.makeDirectory (bytesOf front)
    | some .file, _ => fs := fs.writeFile (bytesOf front) []
    | _, _ => pure ()
  return fs
where
  /-- The path as far as each of its segments. -/
  pathsOf (path : String) : List String :=
    (FileSystem.pathsAlong [] (Path.segments (bytesOf path))).filterMap fun p =>
      (Utf8.decode? p).map String.ofList

/-- The tree with what is at the root of a project, and below it. -/
def loadProject (fs : FileSystem) (root : String) : IO FileSystem := do
  let fs ← loadWay fs root
  match ← kindAt? root, ← realPath? root with
  | some .dir, some real =>
    let (entries, others) ← load real
    let location := (Path.segments (bytesOf real)).filter Path.isProper
    let fs := (fs.makeDirectory (bytesOf real)).change location fun _ => entries
    return others.foldl (fun fs (path, contents) =>
      match fs.lookup .follow (bytesOf path) with
      | .ok _ => fs
      | .error _ => fs.writeFile (bytesOf path) contents) fs
  | some .file, some real =>
    return fs.writeFile (bytesOf real) (← sourceContents real real)
  | _, _ => return fs

/-- Messages are to be coloured. -/
def wantsColour : IO Bool := do
  let isSet (name : String) : IO Bool := do
    return ((← IO.getEnv name).map (· != "0")).getD false
  if ← isSet "CLICOLOR_FORCE" then return true
  if ← isSet "NO_COLOR" then return false
  if (← IO.getEnv "CLICOLOR") == some "0" then return false
  (← IO.getStdout).isTty

/-- The tree that a command line is about. -/
def loadFor (words : List Text) : IO FileSystem := do
  let here := (← IO.currentDir).toString
  let fs := FileSystem.ofWorkingDirectory ((Path.segments (bytesOf here)).filter Path.isProper)
  match CommandLine.Request.ofWords (words.map Utf8.encode) with
  | .ok (.audit s) | .ok (.scan s) =>
    -- the root was a word of text, so it is UTF-8
    loadProject fs (String.ofList (Utf8.decodeLossy s.rootOrHere))
  | _ => return fs

end AssetAudit

open AssetAudit in
/-- Runs the program on the words of its command line. -/
def main (args : List String) : IO UInt32 := do
  let words := args.map String.toList
  let fs ← loadFor words
  let outcome := CommandLine.run fs (← wantsColour) words
  (← IO.getStderr).putStr (String.ofList outcome.messages)
  (← IO.getStdout).putStr (String.ofList outcome.output)
  return outcome.status.toUInt32

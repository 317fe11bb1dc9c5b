/-
AssetAudit/FileSystem/Lookup.lean

Following a path to what it names.

A path is followed segment by segment, and what one segment does is a `Move`
(`moveAt`).  `.` and empty segments stay where they are, `..` goes up, a name
goes to that entry.  A link is replaced by its target, which starts at the
directory that holds the link, or at the top if it is absolute; a link at the
very end may also be looked at itself.  A path ends with a `LookupError` where

* it cannot be handed to the system at all, holding a zero byte;
* it is empty, or names an entry that is not there;
* it goes on behind a file, be it by a slash alone;
* it, or a name in it, is longer than the system allows;
* it leads over more links than the system follows.

Links are counted along the whole path, so a link that leads to itself ends
as well.  The recursion is on the segments, and on the links that may still
be followed.
-/
import AssetAudit.FileSystem.Tree
import AssetAudit.Path.Component

namespace AssetAudit

/-! ### Errors -/

/-- Why nothing is found at a path. -/
inductive LookupError where
  | zeroByte
  | notFound
  | notDirectory
  | isDirectory
  | nameTooLong
  | tooManyLinks
  deriving DecidableEq, Repr

/-- The error in words. -/
def LookupError.message : LookupError → Text
  | .zeroByte => "file name contained an unexpected NUL byte".toList
  | .notFound => "No such file or directory (os error 2)".toList
  | .notDirectory => "Not a directory (os error 20)".toList
  | .isDirectory => "Is a directory (os error 21)".toList
  | .nameTooLong => "File name too long (os error 36)".toList
  | .tooManyLinks => "Too many levels of symbolic links (os error 40)".toList

/-- The number of bytes that a path must stay below. -/
def pathLimit : Nat := 4096

/-- The greatest number of bytes of a name. -/
def nameLimit : Nat := 255

/-- The greatest number of links that are followed along one path. -/
def linkLimit : Nat := 40

/-! ### Following a path -/

/-- What a path leads to. -/
inductive Place where
  /-- Nothing: the directory has no entry of that name. -/
  | vacant (parent : Location) (name : Bytes)
  | file (location : Location) (contents : Bytes)
  | link (location : Location) (target : Bytes)
  | directory (location : Location) (listing : List Entry)

/-- What happens to a link at the end of a path. -/
inductive LastLink where
  /-- It is replaced by its target like any other. -/
  | follow
  /-- It is what the path leads to. -/
  | keep
  deriving DecidableEq, Repr

/-- A path starts at the top directory. -/
def isAbsolute : Bytes → Bool
  | b :: _ => CodeUnit.is b '/'
  | [] => false

/-- Where one segment leads. -/
inductive Move where
  /-- To a location, from which the path goes on. -/
  | on (next : Location)
  /-- To a link with that target. -/
  | link (target : Bytes)
  /-- To a place where the path has to end; it has the error if it does not. -/
  | last (p : Place) (e : LookupError)
  /-- Nowhere. -/
  | stop (e : LookupError)

/-- Where a name leads from a location, by what is there: an entry, none, or
not even a directory. -/
def moveTo (here : Location) (name : Bytes) : Option (Option Entry) → Move
  | none => .stop .notFound
  | some none => .last (.vacant here name) .notFound
  | some (some (.file _ contents)) => .last (.file (here ++ [name]) contents) .notDirectory
  | some (some (.directory _ _)) => .on (here ++ [name])
  | some (some (.link _ target)) => .link target

/-- Where a segment leads from a location. -/
def moveAt (top : List Entry) (here : Location) (s : Bytes) : Move :=
  if s.isEmpty || Path.isDot s then .on here
  else if Path.isDotDot s then .on here.dropLast
  else if s.length > nameLimit then .stop .nameTooLong
  else moveTo here s ((listingAt? top here).map (entryOf? · s))

/-- What the segments lead to from a location.  `onLink` goes on where a link
has been replaced by its target. -/
def followSegments (top : List Entry) (last : LastLink)
    (onLink : Location → List Bytes → Except LookupError Place) :
    Location → List Bytes → Except LookupError Place
  | here, [] =>
    match listingAt? top here with
    | some listing => .ok (.directory here listing)
    | none => .error .notFound
  | here, s :: rest =>
    match moveAt top here s with
    | .on next => followSegments top last onLink next rest
    | .last p e => if rest.isEmpty then .ok p else .error e
    | .stop e => .error e
    | .link target =>
      if rest.isEmpty && last == .keep then .ok (.link (here ++ [s]) target)
      else if target.isEmpty then .error .notFound
      else onLink (if isAbsolute target then [] else here) (Path.segments target ++ rest)

/-- What the segments lead to from a location, over so many links at most. -/
def follow (top : List Entry) (last : LastLink) :
    (links : Nat) → Location → List Bytes → Except LookupError Place
  | 0 => followSegments top last fun _ _ => .error .tooManyLinks
  | links + 1 => followSegments top last (follow top last links)

namespace FileSystem

/-- What a path leads to. -/
def locate (fs : FileSystem) (last : LastLink) (path : Bytes) : Except LookupError Place :=
  if path.contains 0 then .error .zeroByte
  else if path.isEmpty then .error .notFound
  else if path.length ≥ pathLimit then .error .nameTooLong
  else
    follow fs.top last linkLimit (if isAbsolute path then [] else fs.workingDirectory)
      (Path.segments path)

/-- What is there at a path. -/
def lookup (fs : FileSystem) (last : LastLink) (path : Bytes) : Except LookupError Place :=
  match fs.locate last path with
  | .ok (.vacant _ _) => .error .notFound
  | r => r

/-- The path leads to a file. -/
def isFile (fs : FileSystem) (path : Bytes) : Bool :=
  match fs.lookup .follow path with
  | .ok (.file _ _) => true
  | _ => false

/-- What the file at a path holds. -/
def readFile (fs : FileSystem) (path : Bytes) : Except LookupError Bytes :=
  match fs.lookup .follow path with
  | .ok (.file _ contents) => .ok contents
  | .ok _ => .error .isDirectory
  | .error e => .error e

end FileSystem

end AssetAudit

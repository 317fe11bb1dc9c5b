/-
AssetAudit/Finding.lean

What is wrong with an image, and how it is said.

The checks on an image come in four groups, and of each group at most one
finding is made, the first that applies (`Asset.findings`):

1. it has no file, or else no mention;
2. it has no Retina file, or else no file of standard resolution;
3. it has no file for an iPhone, or else none for an iPad;
4. two of its files have one name.

A finding is written as a line of text, where a path that is not UTF-8 is
shown with replacement characters, or as JSON, which such a path has no place
in.
-/
import AssetAudit.Asset.Catalogue
import AssetAudit.Json.Basic

namespace AssetAudit

/-- Something wrong with one image. -/
inductive Finding where
  /-- Sources mention the image, and it has no file. -/
  | missingFiles (bundle : Text) (references : List Bytes)
  /-- The image called `image` is without a part. -/
  | missing (part : Part) (image : Text)
  /-- Two of the image's files have one name. -/
  | duplicates (files : List Text)
  deriving DecidableEq, Repr

/-! ### The checks -/

namespace Asset

/-- The finding that a part is missing, if it is. -/
def missing? (a : Asset) (p : Part) : Option Finding :=
  if a.lacks p then some (.missing p a.shownName) else none

/-- The finding that the image has no file, if it has none. -/
def missingFiles? (a : Asset) : Option Finding :=
  if a.lacksFiles then some (.missingFiles a.bundle a.references) else none

/-- The finding that files have one name, if two have. -/
def duplicates? (a : Asset) : Option Finding :=
  if a.hasDuplicates then some (.duplicates a.files) else none

/-- What is wrong with the image, one finding for each group of checks at
most. -/
def findings (a : Asset) : List Finding :=
  [a.missingFiles? <|> a.missing? .references,
    a.missing? .retina <|> a.missing? .standard,
    a.missing? .iphone <|> a.missing? .ipad,
    a.duplicates?].filterMap id

end Asset

/-- What is wrong with the images of a catalogue, image by image. -/
def Catalogue.findings (c : Catalogue) : List Finding :=
  c.assets.flatMap Asset.findings

/-! ### As text -/

namespace Part

/-- What a report says of an image without the part. -/
def heading : Part → String
  | .references => "Missing references"
  | .retina => "Missing Retina version"
  | .standard => "Missing non-Retina version"
  | .iphone => "Missing iPhone version"
  | .ipad => "Missing iPad version"

/-- The word for the finding that the part is missing. -/
def keyword : Part → String
  | .references => "missing_references"
  | .retina => "missing_retina"
  | .standard => "missing_non_retina"
  | .iphone => "missing_iphone_version"
  | .ipad => "missing_ipad_version"

/-- The parts in the order in which they are checked. -/
def all : List Part :=
  [.references, .retina, .standard, .iphone, .ipad]

/-- The part that a word stands for. -/
def ofKeyword? (word : String) : Option Part :=
  all.find? (·.keyword == word)

end Part

/-- Texts with a comma and a blank between them. -/
def commaSeparated (ts : List Text) : Text :=
  ", ".toList.intercalate ts

namespace Finding

/-- The kind of the finding, in words. -/
def heading : Finding → Text
  | .missingFiles _ _ => "Missing image files".toList
  | .missing part _ => part.heading.toList
  | .duplicates _ => "Potentially duplicate files".toList

/-- What the finding is about. -/
def about : Finding → Text
  | .missingFiles bundle references =>
    bundle ++ " (references: ".toList ++ commaSeparated (references.map Utf8.decodeLossy) ++ [')']
  | .missing _ image => image
  | .duplicates files => commaSeparated files

/-- The finding as it is told to a reader. -/
def line (f : Finding) : Text :=
  f.heading ++ ": ".toList ++ f.about

end Finding

/-- The findings, each on a line of its own. -/
def linesOf (fs : List Finding) : Text :=
  fs.flatMap fun f => f.line ++ ['\n']

/-! ### As JSON -/

/-- Why a report has no JSON form. -/
inductive ReportError where
  /-- A path in it is not UTF-8. -/
  | notUtf8 (path : Bytes)
  deriving DecidableEq, Repr

/-- The error in words. -/
def ReportError.message : ReportError → Text
  | .notUtf8 _ => "path contains invalid UTF-8 characters".toList

/-- A path as JSON, which it has only if it is UTF-8. -/
def pathJson (p : Bytes) : Except ReportError Json :=
  match Utf8.decode? p with
  | some t => .ok (.text t)
  | none => .error (.notUtf8 p)

namespace Finding

/-- The finding as JSON: its kind, then its fields. -/
def toJson : Finding → Except ReportError Json
  | .missingFiles bundle references => do
    let paths ← references.mapM pathJson
    return .object [("kind".toList, .text "missing_image_files".toList),
      ("bundle_name".toList, .text bundle), ("references".toList, .list paths)]
  | .missing part image =>
    .ok (.object [("kind".toList, .text part.keyword.toList), ("image".toList, .text image)])
  | .duplicates files =>
    .ok (.object [("kind".toList, .text "duplicate_files".toList),
      ("files".toList, .list (files.map .text))])

end Finding

/-- The findings as a JSON list. -/
def findingsJson (fs : List Finding) : Except ReportError Json :=
  (fs.mapM Finding.toJson).map .list

end AssetAudit

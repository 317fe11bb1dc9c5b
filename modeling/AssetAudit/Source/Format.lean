/-
AssetAudit/Source/Format.lean

The formats of source file that can mention an image.

A file's format is told by the end of its name alone.  No name has the
extensions of two formats.
-/
import AssetAudit.Text.CodeUnit

namespace AssetAudit

/-- A format of source file. -/
inductive SourceFormat where
  /-- Objective-C, which asks for an image with `imageNamed:@"name"`. -/
  | objectiveC
  /-- Swift, which asks for an image with `UIImage(named: "name")`. -/
  | swift
  /-- Interface Builder documents, which hold image file names in quotes. -/
  | interface
  /-- Property lists, which hold image file names as element text. -/
  | propertyList
  deriving DecidableEq, Repr

namespace SourceFormat

/-- The formats in the order in which a project's sources are gone through. -/
def all : List SourceFormat :=
  [.objectiveC, .swift, .interface, .propertyList]

/-- The endings of the names of files in a format. -/
def extensions : SourceFormat → List Text
  | .objectiveC => [".m".toList, ".mm".toList]
  | .swift => [".swift".toList]
  | .interface => [".xib".toList, ".storyboard".toList]
  | .propertyList => [".plist".toList]

/-- A file called `name` is in the format. -/
def isOf (f : SourceFormat) (name : Text) : Bool :=
  f.extensions.any (·.isSuffixOf name)

/-- The word for a format in written answers. -/
def keyword : SourceFormat → String
  | .objectiveC => "objective_c"
  | .swift => "swift"
  | .interface => "interface"
  | .propertyList => "property_list"

/-- The format that a word stands for. -/
def ofKeyword? (word : String) : Option SourceFormat :=
  all.find? (·.keyword == word)

theorem mem_all (f : SourceFormat) : f ∈ all := by
  cases f <;> decide

end SourceFormat

/-- The extension of image files, which counts in this letter case only. -/
def imageExtension : Text :=
  ".png".toList

/-- A file called `name` is an image. -/
def isImageName (name : Text) : Bool :=
  imageExtension.isSuffixOf name

end AssetAudit

/-
AssetAudit/Audit/Survey.lean

What a project holds: its image files, its sources, and what they mention.

The images come first, then the sources, one format after the other, each
read for the names it mentions.  Paths of images and of the sources in
mentions are as seen from the root.  A survey fails where the walk fails, or
where a source that was found cannot be read.

The catalogue of a survey takes in all images before any mention, so the
images that have files come in the order of their first files, and behind
them those that are only mentioned.
-/
import AssetAudit.Asset.Catalogue
import AssetAudit.Source.Encoding
import AssetAudit.Source.Mention
import AssetAudit.Walk.Basic

namespace AssetAudit

/-- An image name written in a source. -/
structure SourceMention where
  /-- The name as it is written. -/
  name : Text
  /-- The path of the source, as seen from the root. -/
  source : Bytes
  /-- The format of the source. -/
  format : SourceFormat
  deriving DecidableEq, Repr

namespace Walk

/-- The image files of the walk, as seen from the root. -/
def imageFiles (w : Walk) : Except Failure (List Bytes) :=
  (w.select isImageName).map fun fs => fs.map fun f => Path.seenFrom w.root f.path

/-- The source files of a format, with the root in front. -/
def sourceFiles (w : Walk) (format : SourceFormat) : Except Failure (List Bytes) :=
  (w.select format.isOf).map fun fs => fs.map Found.path

end Walk

/-- What a source of a format mentions, where the source is at `file` and the
project at `root`. -/
def mentionsIn (fs : FileSystem) (root file : Bytes) (format : SourceFormat) :
    Except Failure (List SourceMention) :=
  match fs.readFile file with
  | .error cause => .error (.read file cause)
  | .ok contents =>
    .ok ((format.mentions (sourceText contents)).map
      fun name => ⟨name, Path.seenFrom root file, format⟩)

/-! ### Surveys -/

/-- What a project holds. -/
structure Survey where
  /-- The paths of the image files. -/
  images : List Bytes
  /-- The paths of the sources gone through. -/
  sources : List Bytes
  /-- What the sources mention. -/
  mentions : List SourceMention

namespace Walk

/-- The sources of a format, and what they mention. -/
def surveyFormat (w : Walk) (format : SourceFormat) :
    Except Failure (List Bytes × List SourceMention) := do
  let files ← w.sourceFiles format
  let mentions ← files.mapM fun file => mentionsIn w.fs w.root file format
  return (files, mentions.flatten)

/-- What the project of the walk holds. -/
def survey (w : Walk) : Except Failure Survey := do
  let images ← w.imageFiles
  let parts ← SourceFormat.all.mapM w.surveyFormat
  return ⟨images, parts.flatMap (·.1), parts.flatMap (·.2)⟩

end Walk

/-- The images of a project: those with files, then those only mentioned. -/
def Survey.catalogue (s : Survey) : Catalogue :=
  s.mentions.foldl (fun c m => c.addMention m.name m.source)
    (s.images.foldl Catalogue.addFile Catalogue.empty)

end AssetAudit

/-
AssetAudit/Proofs/Spelling.lean

The root by another path.

A walk meets what is below its root, and says of it what it is as seen from the
root, so it does not matter how the root is written: with dots or slashes more,
from the top, or over links.  A `Respelling` is a walk below a directory
together with another path of the directory.

There is one thing that depends on the path.  The links on the way to the root
and those on the way from there to where a link leads are counted together, and
the system follows only so many of them.  So a link may lead to a file by one
path of the root and too far by another (`imageFiles_of_spiralProject`).  A
`Respelling` asks that this does not happen to a link that is looked for.  It
cannot happen where both paths of the root lead over equally many links.

* `Respelling.exists_select` — files of one kind are selected at the same
  locations;
* `Respelling.readFile_eq` — they are read alike;
* `audit_of_respelled` — so the image files and the audit are the same.
-/
import AssetAudit.Proofs.Links
import AssetAudit.Proofs.Pruning

namespace AssetAudit

/-! ### What a survey looks for -/

/-- A survey looks for files of that name, for images or for sources. -/
def IsSurveyed (name : Text) : Prop :=
  isImageName name = true ∨ ∃ format : SourceFormat, format.isOf name = true

/-- The name at the end of a location, as it is shown. -/
def shownName (l : Location) : Text :=
  Utf8.decodeLossy (l.getLast?.getD [])

/-- The first path leads to a file, and the second over too many links. -/
def FileSystem.losesFile (fs : FileSystem) (path path' : Bytes) : Bool :=
  fs.isFile path && isTooFar (fs.lookup .follow path')

/-- The path leads to the directory at that location. -/
def FileSystem.leadsTo (fs : FileSystem) (path : Bytes) (here : Location) : Bool :=
  match fs.lookup .follow path with
  | .ok (.directory place _) => place == here
  | _ => false

theorem FileSystem.lookup_of_leadsTo {fs : FileSystem} {path : Bytes} {here : Location}
    {d : List Entry} (h : fs.leadsTo path here = true) (listed : listingAt? fs.top here = some d) :
    fs.lookup .follow path = .ok (.directory here d) := by
  rw [leadsTo] at h
  split at h
  · rename_i place d' found
    obtain rfl := eq_of_beq h
    have same := (listingAt?_of_lookup found).symm.trans listed
    rw [found, Option.some.inj same]
  · cases h

theorem FileSystem.losesFile_of_eq {fs : FileSystem} {path path' : Bytes}
    (h : fs.lookup .follow path = fs.lookup .follow path') : fs.losesFile path path' = false := by
  rw [losesFile, isFile, h]
  split
  · rename_i found
    rw [found]
    rfl
  · rfl

namespace Walk

/-- The sources that are collected are those selected. -/
theorem Collection.sources_of_select {w : Walk} (c : w.Collection) {format : SourceFormat}
    {ls : List Location} (selected : w.select format.isOf = .ok (ls.map (foundOf w.root))) :
    c.sources format = ls.map (Path.joinAll w.root) := by
  have collected := c.sources_found format
  rw [sourceFiles, selected] at collected
  rw [← Except.ok.inj collected]
  show (ls.map _).map _ = _
  rw [List.map_map]
  rfl

/-- No link below the root that is kept and looked for leads to a file by one
path of the root and over too many links by the other. -/
def LosesNoLink (w : Walk) (path : Bytes) (listing : List Entry) : Prop :=
  ∀ l target, kindBelow? listing l = some (.link target) → w.exclusion.Admits [] l →
    IsSurveyed (shownName l) →
      w.fs.losesFile (Path.joinAll w.root l) (Path.joinAll path l) = false ∧
        w.fs.losesFile (Path.joinAll path l) (Path.joinAll w.root l) = false

theorem LosesNoLink.of_census {w : Walk} {path : Bytes} {listing : List Entry}
    (h : ∀ place ∈ census listing, place.2.isLink = true →
      w.fs.losesFile (Path.joinAll w.root place.1) (Path.joinAll path place.1) = false ∧
        w.fs.losesFile (Path.joinAll path place.1) (Path.joinAll w.root place.1) = false) :
    w.LosesNoLink path listing :=
  fun _ _ there _ _ => h _ (mem_census_of_kindBelow? there) rfl

/-- A walk below a directory, and another path of the directory. -/
structure Respelling (w : Walk) where
  /-- The other path. -/
  path : Bytes
  /-- Where both lead. -/
  here : Location
  /-- What is listed there. -/
  listing : List Entry
  tree : IsTree w.fs.top
  place : w.fs.lookup .follow w.root = .ok (.directory here listing)
  place' : w.fs.lookup .follow path = .ok (.directory here listing)
  names : KeepsNames listing
  short : KeepsShort w.root listing
  short' : KeepsShort path listing
  near : w.LosesNoLink path listing

namespace Respelling

variable {w : Walk} (r : w.Respelling) {l : Location}

/-- The walk by the other path. -/
def walk : Walk :=
  { w with root := r.path }

include r

theorem tree' : IsTree r.listing :=
  isTree_of_lookup r.tree r.place

theorem written : w.root ≠ [] :=
  (FileSystem.valid_of_lookup r.place).2.1

theorem written' : r.path ≠ [] :=
  (FileSystem.valid_of_lookup r.place').2.1

/-! ### What is found -/

theorem keeps_iff (names : ∀ n ∈ l, IsEntryName n) :
    r.walk.Keeps r.path l ↔ w.Keeps w.root l :=
  (keeps_iff_admits (w := r.walk) r.written' names).trans (keeps_iff_admits r.written names).symm

/-- A location is looked up alike by both paths, unless one leads too far. -/
theorem lookup_cases {k : Kind} (there : kindBelow? r.listing l = some k) :
    w.fs.lookup .follow (Path.joinAll w.root l) = w.fs.lookup .follow (Path.joinAll r.path l) ∨
      w.fs.lookup .follow (Path.joinAll w.root l) = .error .tooManyLinks ∨
      w.fs.lookup .follow (Path.joinAll r.path l) = .error .tooManyLinks := by
  have below : l ≠ [] := by
    rintro rfl
    cases there
  have names := r.tree'.isEntryName_of_kindBelow? there
  have storable := r.names l k there
  exact FileSystem.lookup_joinAll_cases r.place r.place' below
    (fun n hn => ⟨names n hn, (storable n hn).1⟩) (r.short l k there) (r.short' l k there)

/-- A link that is looked for is looked up alike, or leads to no file by either
path. -/
theorem lookup_link {target : Bytes} (there : kindBelow? r.listing l = some (.link target))
    (kept : w.Keeps w.root l) (surveyed : IsSurveyed (shownName l)) :
    w.fs.lookup .follow (Path.joinAll r.path l) = w.fs.lookup .follow (Path.joinAll w.root l) ∨
      w.fs.isFile (Path.joinAll w.root l) = false ∧
        w.fs.isFile (Path.joinAll r.path l) = false := by
  have names := r.tree'.isEntryName_of_kindBelow? there
  have admitted := (keeps_iff_admits r.written names).mp kept
  obtain ⟨near, near'⟩ := r.near l target there admitted surveyed
  rcases r.lookup_cases there with same | far | far
  · exact .inl same.symm
  · -- by the path that leads too far there is no file, and so not by the other
    rw [FileSystem.losesFile, far, isTooFar, Bool.and_true] at near'
    exact .inr ⟨by rw [FileSystem.isFile, far], near'⟩
  · rw [FileSystem.losesFile, far, isTooFar, Bool.and_true] at near
    exact .inr ⟨near, by rw [FileSystem.isFile, far]⟩

theorem isFile_link {target : Bytes} (there : kindBelow? r.listing l = some (.link target))
    (kept : w.Keeps w.root l) (surveyed : IsSurveyed (shownName l)) :
    w.fs.isFile (Path.joinAll r.path l) = w.fs.isFile (Path.joinAll w.root l) := by
  rcases r.lookup_link there kept surveyed with same | ⟨no, no'⟩
  · rw [FileSystem.isFile, FileSystem.isFile, same]
  · rw [no, no']

/-- What is looked for is found by both paths, or by neither. -/
theorem finds_iff (surveyed : IsSurveyed (shownName l)) :
    r.walk.Finds r.path r.listing l ↔ w.Finds w.root r.listing l := by
  rw [Finds, Finds, Meets, Meets]
  constructor
  · rintro ⟨kept, k, there, holds⟩
    have kept := (r.keeps_iff (r.tree'.isEntryName_of_kindBelow? there)).mp kept
    refine ⟨kept, k, there, ?_⟩
    cases k with
    | file contents => rfl
    | link target => exact (r.isFile_link there kept surveyed).symm.trans holds
    | directory => exact holds
  · rintro ⟨kept, k, there, holds⟩
    refine ⟨(r.keeps_iff (r.tree'.isEntryName_of_kindBelow? there)).mpr kept, k, there, ?_⟩
    cases k with
    | file contents => rfl
    | link target => exact (r.isFile_link there kept surveyed).trans holds
    | directory => exact holds

/-- **What is looked for is selected at the same locations.** -/
theorem exists_select (wanted : Text → Bool) (h : ∀ name, wanted name = true → IsSurveyed name) :
    ∃ ls : List Location, w.select wanted = .ok (ls.map (foundOf w.root)) ∧
      r.walk.select wanted = .ok (ls.map (foundOf r.path)) ∧
      ∀ l ∈ ls, w.Finds w.root r.listing l ∧ IsSurveyed (shownName l) := by
  have free : ∀ l, ¬w.Stops w.root r.listing l := by
    rintro l ⟨_, k, there, _, long⟩
    exact absurd (r.short l k there) (Nat.not_lt_of_le long)
  have free' : ∀ l, ¬r.walk.Stops r.path r.listing l := by
    rintro l ⟨_, k, there, _, long⟩
    exact absurd (r.short' l k there) (Nat.not_lt_of_le long)
  obtain ⟨ls, selected, mem, sorted⟩ := select_of_free (answers_found r.tree r.place) wanted free
  obtain ⟨ls', selected', mem', sorted'⟩ :=
    select_of_free (answers_found (w := r.walk) r.tree r.place') wanted free'
  have same : ls = ls' := by
    apply sorted.eq_of_mem_iff sorted'
    intro l
    rw [mem, mem']
    show w.Finds w.root r.listing l ∧ wanted (shownName l) = true ↔
      r.walk.Finds r.path r.listing l ∧ wanted (shownName l) = true
    exact and_congr_left fun name => (r.finds_iff (h _ name)).symm
  subst same
  refine ⟨ls, selected, selected', ?_⟩
  intro l hl
  obtain ⟨finds, name⟩ := (mem l).mp hl
  exact ⟨finds, h _ name⟩

/-- What is found is read alike. -/
theorem readFile_eq (finds : w.Finds w.root r.listing l) (surveyed : IsSurveyed (shownName l)) :
    w.fs.readFile (Path.joinAll r.path l) = w.fs.readFile (Path.joinAll w.root l) := by
  obtain ⟨kept, k, there, holds⟩ := finds
  cases k with
  | file contents =>
    rw [FileSystem.readFile_joinAll r.tree' r.names r.place there,
      FileSystem.readFile_joinAll r.tree' r.names r.place' there, if_pos (r.short l _ there),
      if_pos (r.short' l _ there)]
  | link target =>
    rcases r.lookup_link there kept surveyed with same | ⟨no, _⟩
    · rw [FileSystem.readFile, FileSystem.readFile, same]
    · exact absurd (no.symm.trans holds) Bool.false_ne_true
  | directory => cases holds

/-- What is found is seen from the root as the names that lead there. -/
theorem seen (finds : w.Finds w.root r.listing l) :
    Path.seenFrom w.root (Path.joinAll w.root l) = [0x2F].intercalate l ∧
      Path.seenFrom r.path (Path.joinAll r.path l) = [0x2F].intercalate l := by
  obtain ⟨_, _, there, _⟩ := finds
  have names := r.tree'.isEntryName_of_kindBelow? there
  exact ⟨Path.seenFrom_joinAll r.written names, Path.seenFrom_joinAll r.written' names⟩

/-! ### What is surveyed -/

theorem exists_imageFiles :
    ∃ images, w.imageFiles = .ok images ∧ r.walk.imageFiles = .ok images := by
  obtain ⟨ls, selected, selected', found⟩ := r.exists_select isImageName fun _ => .inl
  refine ⟨ls.map ([0x2F].intercalate ·), ?_, ?_⟩
  · rw [imageFiles, selected]
    show Except.ok ((ls.map _).map _) = _
    rw [List.map_map]
    exact congrArg Except.ok (List.map_congr_left fun l hl => (r.seen (found l hl).1).1)
  · rw [imageFiles, selected']
    show Except.ok ((ls.map _).map _) = _
    rw [List.map_map]
    exact congrArg Except.ok (List.map_congr_left fun l hl => (r.seen (found l hl).1).2)

section Collections

variable (c : w.Collection) (c' : r.walk.Collection)

/-- The sources of a format are at the same locations, and mention the same. -/
theorem sources_of_format (format : SourceFormat) :
    (c.sources format).length = (c'.sources format).length ∧
      (c.sources format).flatMap (c.mentionsOf format) =
        (c'.sources format).flatMap (c'.mentionsOf format) := by
  obtain ⟨ls, selected, selected', found⟩ :=
    r.exists_select format.isOf fun _ name => .inr ⟨format, name⟩
  have sources := c.sources_of_select selected
  have sources' : c'.sources format = ls.map (Path.joinAll r.path) :=
    c'.sources_of_select selected'
  have mentions : ∀ l ∈ ls, c.mentionsOf format (Path.joinAll w.root l) =
      c'.mentionsOf format (Path.joinAll r.path l) := by
    intro l hl
    obtain ⟨finds, surveyed⟩ := found l hl
    have read := c.contents_read format _ (by rw [sources]; exact List.mem_map_of_mem hl)
    have read' := c'.contents_read format _ (by rw [sources']; exact List.mem_map_of_mem hl)
    have same := read.symm.trans ((r.readFile_eq finds surveyed).symm.trans read')
    obtain ⟨seen, seen'⟩ := r.seen finds
    have seen' : Path.seenFrom r.walk.root (Path.joinAll r.path l) = [0x2F].intercalate l := seen'
    rw [Collection.mentionsOf, Collection.mentionsOf, Except.ok.inj same, seen, seen']
  constructor
  · rw [sources, sources', List.length_map, List.length_map]
  · rw [sources, sources', List.flatMap_map, List.flatMap_map]
    exact List.flatMap_congr mentions

/-- **Both paths make one report.** -/
theorem report_eq : c'.toSurvey.report = c.toSurvey.report := by
  have images : c'.toSurvey.images = c.toSurvey.images := by
    obtain ⟨images, found, found'⟩ := r.exists_imageFiles
    rw [c.images_found] at found
    rw [c'.images_found] at found'
    exact (Except.ok.inj found').trans (Except.ok.inj found).symm
  have mentions : c'.toSurvey.mentions = c.toSurvey.mentions :=
    List.flatMap_congr fun format _ => (r.sources_of_format c c' format).2.symm
  have sources : c'.toSurvey.sources.length = c.toSurvey.sources.length := by
    show (List.flatMap _ _).length = (List.flatMap _ _).length
    rw [List.length_flatMap, List.length_flatMap]
    exact congrArg List.sum
      (List.map_congr_left fun format _ => (r.sources_of_format c c' format).1.symm)
  have catalogue : c'.toSurvey.catalogue = c.toSurvey.catalogue := by
    rw [Survey.catalogue, Survey.catalogue, images, mentions]
  rw [Survey.report_eq, Survey.report_eq, Survey.totals_eq, Survey.totals_eq, catalogue, images,
    mentions, sources]

end Collections

end Respelling

/-- Paths that lead over equally many links lose none. -/
theorem losesNoLink_of_linksOn {w : Walk} {path : Bytes} {here : Location} {listing : List Entry}
    (tree : IsTree w.fs.top) (place : w.fs.lookup .follow w.root = .ok (.directory here listing))
    (place' : w.fs.lookup .follow path = .ok (.directory here listing))
    (names : KeepsNames listing) (short : KeepsShort w.root listing)
    (short' : KeepsShort path listing) (links : w.fs.linksOn w.root = w.fs.linksOn path) :
    w.LosesNoLink path listing := by
  intro l target there _ _
  have below : l ≠ [] := by
    rintro rfl
    cases there
  have entries := (isTree_of_lookup tree place).isEntryName_of_kindBelow? there
  have storable := names l _ there
  have same := FileSystem.lookup_joinAll_eq place place' below
    (fun n hn => ⟨entries n hn, (storable n hn).1⟩) (short l _ there) (short' l _ there) links
  exact ⟨FileSystem.losesFile_of_eq same, FileSystem.losesFile_of_eq same.symm⟩

/-- **How the root is written does not matter.**  Two paths that lead to one
directory, and by which the system takes all paths below it, select the same
image files and make one audit, the same findings and totals, whatever is left
out.  They have to lead over equally many links, or at least no link that is
looked for may lead to a file by one of them and over too many links by the
other. -/
theorem audit_of_respelled {w : Walk} {path : Bytes} {here : Location} {listing : List Entry}
    (tree : IsTree w.fs.top) (place : w.fs.lookup .follow w.root = .ok (.directory here listing))
    (place' : w.fs.lookup .follow path = .ok (.directory here listing))
    (names : KeepsNames listing) (short : KeepsShort w.root listing)
    (short' : KeepsShort path listing)
    (near : w.fs.linksOn w.root = w.fs.linksOn path ∨ w.LosesNoLink path listing) :
    ∃ images report, w.imageFiles = .ok images ∧ w.audit = .ok report ∧
      ({ w with root := path } : Walk).imageFiles = .ok images ∧
      ({ w with root := path } : Walk).audit = .ok report := by
  have near : w.LosesNoLink path listing :=
    near.elim (losesNoLink_of_linksOn tree place place' names short short') id
  let r : w.Respelling := ⟨path, here, listing, tree, place, place', names, short, short', near⟩
  obtain ⟨images, found, found'⟩ := r.exists_imageFiles
  -- whatever is found can be read, by both paths
  obtain ⟨all, walked⟩ := exists_found_of_short tree place short
  obtain ⟨all', walked'⟩ := exists_found_of_short (w := r.walk) tree place' short'
  have readable := readable_of_short tree place names short walked
  have readable' := readable_of_short (w := r.walk) tree place' names short' walked'
  refine ⟨images, _, found, audit_of_readable walked readable, found', ?_⟩
  rw [← r.report_eq _ (.ofFound walked' readable')]
  exact audit_of_readable walked' readable'

end Walk

/-- A project with links to a file and to a directory, and a directory with a file
that a pattern leaves out by its path. -/
def respelledProject : Walk where
  fs := {
    top := [.directory (Utf8.encode "p".toList) [
      .file (Utf8.encode "A.m".toList) (Utf8.encode "imageNamed:@\"logo\"".toList),
      .link (Utf8.encode "z.png".toList) (Utf8.encode "d/b.png".toList),
      .link (Utf8.encode "d".toList) (Utf8.encode "/p/a".toList),
      .directory (Utf8.encode "a".toList) [
        .file (Utf8.encode "b.png".toList) [],
        .file (Utf8.encode "c.png".toList) []]]]
    workingDirectory := [Utf8.encode "p".toList] }
  exclusion := ⟨["a/c.png".toList.map .literal], true⟩
  root := Utf8.encode ".".toList

/-- From the top, over a link and back up, and with slashes more it is the same
project. -/
theorem audit_of_respelledProject :
    let w : Walk := { respelledProject with root := Utf8.encode "/p/./d//../".toList }
    respelledProject.fs.linksOn respelledProject.root = 0 ∧ w.fs.linksOn w.root = 1 ∧
    ∃ report, respelledProject.audit = .ok report ∧ w.audit = .ok report ∧
      ∃ images, respelledProject.imageFiles = .ok images ∧ w.imageFiles = .ok images ∧
        images = [Utf8.encode "a/b.png".toList, Utf8.encode "z.png".toList] := by
  intro w
  have found : respelledProject.imageFiles =
      .ok [Utf8.encode "a/b.png".toList, Utf8.encode "z.png".toList] := by decide +kernel
  have place : w.fs.lookup .follow w.root = .ok (.directory [Utf8.encode "p".toList] _) :=
    FileSystem.lookup_of_leadsTo (by decide +kernel) rfl
  obtain ⟨images, report, same, audited, same', audited'⟩ :=
    Walk.audit_of_respelled (w := respelledProject) (by decide) rfl place (.of_census (by decide))
      (.of_census (by decide)) (.of_census (by decide)) (.inr (.of_census (by decide +kernel)))
  exact ⟨by decide +kernel, by decide +kernel, report, audited, audited', images, same, same',
    Except.ok.inj (same.symm.trans found)⟩

/-- A project with a link to its own directory, and with one that leads to a file
by going round over that link. -/
def spiralProject : Walk where
  fs := {
    top := [.directory (Utf8.encode "p".toList) [
      .file (Utf8.encode "x".toList) [],
      .link (Utf8.encode "s".toList) (Utf8.encode ".".toList),
      .link (Utf8.encode "a.png".toList)
        ((List.replicate 25 (Utf8.encode "s/".toList)).flatten ++ Utf8.encode "x".toList)]]
    workingDirectory := [Utf8.encode "p".toList] }
  exclusion := .standard
  root := Utf8.encode ".".toList

/-- When the root is written with rounds of its own, it leads to the same directory
and all paths below it are short, but the image is no longer found. -/
theorem imageFiles_of_spiralProject :
    let w := spiralProject
    let w' : Walk := { w with root := (List.replicate 25 (Utf8.encode "s/".toList)).flatten }
    IsTree w.fs.top ∧ ∃ listing,
      w.fs.lookup .follow w.root = .ok (.directory [Utf8.encode "p".toList] listing) ∧
      w.fs.lookup .follow w'.root = .ok (.directory [Utf8.encode "p".toList] listing) ∧
      KeepsNames listing ∧ KeepsShort w.root listing ∧ KeepsShort w'.root listing ∧
      w.imageFiles = .ok [Utf8.encode "a.png".toList] ∧ w'.imageFiles = .ok [] ∧
      w.audit ≠ w'.audit := by
  intro w w'
  have images : w.imageFiles = .ok [Utf8.encode "a.png".toList] := by decide +kernel
  have images' : w'.imageFiles = .ok [] := by decide +kernel
  have place : w.fs.lookup .follow w'.root = .ok (.directory [Utf8.encode "p".toList] _) :=
    FileSystem.lookup_of_leadsTo (by decide +kernel) rfl
  exact ⟨by decide, _, rfl, place, .of_census (by decide), .of_census (by decide),
    .of_census (by decide), images, images', by decide +kernel⟩

end AssetAudit

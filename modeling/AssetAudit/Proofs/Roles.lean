/-
AssetAudit/Proofs/Roles.lean

Each file in one role.

A project is gone through for its images and for the sources of each format, and
each time the names of all files are tested anew.  No name passes two of the
tests (`Role.eq_of_isOf`).  A file is told by its location, and each location has
a path of its own.  So what the lists hold are the locations with a known
extension, each once (`Walk.exists_locations`).

What is recorded of a file is its path as seen from the root, and with the root in
front that is the path again (`Walk.join_seenFrom`).  So no two files are recorded
alike, and the mentions that are recorded with one path come from one reading of
one file (`Walk.Collection.filter_mentions`).

Main result: `Walk.each_file_in_one_role`.
-/
import AssetAudit.Proofs.Matching
import AssetAudit.Proofs.NameBytes
import AssetAudit.Proofs.Recording

namespace AssetAudit

/-! ### Extensions and paths -/

/-- The endings of the names of files that are used. -/
def knownExtensions : List Text :=
  Role.all.flatMap Role.extensions

/-- The endings of the names of sources. -/
def sourceExtensions : List Text :=
  SourceFormat.all.flatMap SourceFormat.extensions

/-- Names with slashes between them go behind a path at once. -/
theorem Path.join_intercalate {base : Bytes} {l : Location} (names : ∀ m ∈ l, IsEntryName m)
    (below : l ≠ []) : join base ([0x2F].intercalate l) = joinAll base l := by
  obtain ⟨n, l, rfl⟩ := List.exists_cons_of_ne_nil below
  rw [join_eq, joinAll_cons_eq names]

namespace Walk

variable {w : Walk} {here : Location} {listing : List Entry} {l : Location} {r : Role}
  {files : List Bytes}

/-! ### Where the files are -/

/-- At the location is a file to be found whose name ends in one of the
extensions. -/
def FindsEnding (w : Walk) (listing : List Entry) (exts : List Text) (l : Location) : Prop :=
  w.Finds w.root listing l ∧ ∃ above n, l = above ++ [n] ∧ ∃ ext ∈ exts, Utf8.encode ext <:+ n

theorem findsEnding_flatMap {roles : List Role} :
    w.FindsEnding listing (roles.flatMap Role.extensions) l ↔
      ∃ r ∈ roles, w.FindsEnding listing r.extensions l := by
  constructor
  · rintro ⟨finds, above, n, e, ext, mem, ends⟩
    obtain ⟨r, hr, mem⟩ := List.mem_flatMap.mp mem
    exact ⟨r, hr, finds, above, n, e, ext, mem, ends⟩
  · rintro ⟨r, hr, finds, above, n, e, ext, mem, ends⟩
    exact ⟨finds, above, n, e, ext, List.mem_flatMap.mpr ⟨r, hr, mem⟩, ends⟩

/-- A location has one role at most. -/
theorem eq_of_findsEnding {r' : Role} (h : w.FindsEnding listing r.extensions l)
    (h' : w.FindsEnding listing r'.extensions l) : r = r' := by
  obtain ⟨_, above, n, rfl, named⟩ := h
  obtain ⟨_, above', n', same, named'⟩ := h'
  obtain ⟨_, rfl⟩ := List.append_singleton_inj.mp same
  exact Role.eq_of_isOf (Role.isOf_iff.mpr named) (Role.isOf_iff.mpr named')

/-- The files of a role, with the root in front. -/
def filesOf (w : Walk) (r : Role) : Except Failure (List Bytes) :=
  (w.select r.test).map fun fs => fs.map Found.path

section Directory

variable (tree : IsTree w.fs.top)
  (root : w.fs.lookup .follow w.root = .ok (.directory here listing))

include tree root

theorem isEntryName_of_finds (finds : w.Finds w.root listing l) : ∀ n ∈ l, IsEntryName n := by
  obtain ⟨_, there⟩ := exists_kind_of_finds finds
  exact (isTree_of_lookup tree root).isEntryName_of_kindBelow? there

/-- Where the files of a role are. -/
theorem exists_locationsOf (h : w.filesOf r = .ok files) :
    ∃ ls : List Location, ls.Nodup ∧ (∀ l, l ∈ ls ↔ w.FindsEnding listing r.extensions l) ∧
      files = ls.map (Path.joinAll w.root) := by
  obtain ⟨fs, selected, rfl⟩ := Except.map_eq_ok_iff.mp h
  obtain ⟨ls, rfl, mem, sorted⟩ := exists_of_select tree root selected
  refine ⟨ls, sorted.nodup, ?_, List.map_map⟩
  intro l
  rw [mem, r.test_decodeLossy, Role.isOf_iff]
  constructor
  · rintro ⟨finds, named⟩
    obtain ⟨above, n, rfl, _⟩ := exists_record tree root finds
    rw [foundOf_concat_name] at named
    exact ⟨finds, above, n, rfl, named⟩
  · rintro ⟨finds, above, n, rfl, named⟩
    rw [foundOf_concat_name]
    exact ⟨finds, named⟩

theorem nodup_filesOf (h : w.filesOf r = .ok files) : files.Nodup := by
  obtain ⟨ls, nodup, mem, rfl⟩ := exists_locationsOf tree root h
  exact nodup_paths (isTree_of_lookup tree root) nodup fun l hl =>
    exists_kind_of_finds ((mem l).mp hl).1

/-- **Where the files of several roles are.**  No location comes twice, and no
path. -/
theorem exists_locations {roles : List Role} (distinct : roles.Nodup)
    {files : Role → List Bytes} (h : ∀ r, w.filesOf r = .ok (files r)) :
    ∃ ls : List Location, ls.Nodup ∧
      (∀ l, l ∈ ls ↔ w.FindsEnding listing (roles.flatMap Role.extensions) l) ∧
      roles.flatMap files = ls.map (Path.joinAll w.root) ∧ (roles.flatMap files).Nodup := by
  choose ls nodup mem paths using fun r => exists_locationsOf tree root (h r)
  have apart : (roles.flatMap ls).Nodup := by
    refine List.nodup_flatMap.mpr ⟨fun r _ => nodup r, distinct.imp ?_⟩
    intro r r' other l hl hl'
    exact other (eq_of_findsEnding ((mem r l).mp hl) ((mem r' l).mp hl'))
  have inside : ∀ l, l ∈ roles.flatMap ls ↔
      w.FindsEnding listing (roles.flatMap Role.extensions) l := by
    intro l
    simp only [List.mem_flatMap, mem, findsEnding_flatMap]
  have flat : roles.flatMap files = (roles.flatMap ls).map (Path.joinAll w.root) := by
    rw [List.map_flatMap]
    exact List.flatMap_congr fun r _ => paths r
  refine ⟨roles.flatMap ls, apart, inside, flat, ?_⟩
  rw [flat]
  exact nodup_paths (isTree_of_lookup tree root) apart fun l hl =>
    exists_kind_of_finds ((inside l).mp hl).1

/-! ### What is recorded of them -/

/-- What a file is recorded with leads back to it from the root. -/
theorem join_seenFrom (finds : w.Finds w.root listing l) :
    Path.join w.root (Path.seenFrom w.root (Path.joinAll w.root l)) = Path.joinAll w.root l := by
  obtain ⟨k, there⟩ := exists_kind_of_finds finds
  have written : l ≠ [] := by
    rintro rfl
    cases there
  rw [FileSystem.seenFrom_joinAll (isTree_of_lookup tree root) root there,
    Path.join_intercalate (isEntryName_of_finds tree root finds) written]

theorem join_seenFrom_of_mem (h : w.filesOf r = .ok files) :
    ∀ path ∈ files, Path.join w.root (Path.seenFrom w.root path) = path := by
  obtain ⟨ls, _, mem, rfl⟩ := exists_locationsOf tree root h
  intro path hpath
  obtain ⟨l, hl, rfl⟩ := List.mem_map.mp hpath
  exact join_seenFrom tree root ((mem l).mp hl).1

/-- No two files are recorded alike. -/
theorem eq_of_seenFrom {r' : Role} {files' : List Bytes} (h : w.filesOf r = .ok files)
    (h' : w.filesOf r' = .ok files') {p q : Bytes} (hp : p ∈ files) (hq : q ∈ files')
    (same : Path.seenFrom w.root p = Path.seenFrom w.root q) : p = q ∧ r = r' := by
  have equal : p = q := by
    rw [← join_seenFrom_of_mem tree root h p hp, same, join_seenFrom_of_mem tree root h' q hq]
  refine ⟨equal, ?_⟩
  obtain ⟨ls, _, mem, rfl⟩ := exists_locationsOf tree root h
  obtain ⟨ls', _, mem', rfl⟩ := exists_locationsOf tree root h'
  obtain ⟨l, hl, rfl⟩ := List.mem_map.mp hp
  obtain ⟨m, hm, rfl⟩ := List.mem_map.mp hq
  have finds := (mem l).mp hl
  have finds' := (mem' m).mp hm
  have place : l = m := Path.joinAll_injective (isEntryName_of_finds tree root finds.1)
    (isEntryName_of_finds tree root finds'.1) equal
  exact eq_of_findsEnding finds (place ▸ finds')

/-- The images with the root in front again. -/
theorem filesOf_image {images : List Bytes} (h : w.imageFiles = .ok images) :
    w.filesOf .image = .ok (images.map (Path.join w.root)) := by
  obtain ⟨fs, selected, rfl⟩ := Except.map_eq_ok_iff.mp h
  have files : w.filesOf .image = .ok (fs.map Found.path) := by
    rw [filesOf, show w.select Role.image.test = .ok fs from selected]
    rfl
  rw [files, List.map_map]
  congr 1
  apply List.map_congr_left
  intro f hf
  exact (join_seenFrom_of_mem tree root files _ (List.mem_map_of_mem hf)).symm

end Directory

end Walk

/-- The files of each role: the images of a list of records with the root in front,
and the sources of their format. -/
def Role.filesIn (root : Bytes) (images : List Bytes) (sources : SourceFormat → List Bytes) :
    Role → List Bytes
  | .image => images.map (Path.join root)
  | .source f => sources f

namespace Walk

variable {w : Walk} {here : Location} {listing : List Entry}

theorem filesOf_eq {images : List Bytes} {sources : SourceFormat → List Bytes}
    (tree : IsTree w.fs.top)
    (root : w.fs.lookup .follow w.root = .ok (.directory here listing))
    (imagesFound : w.imageFiles = .ok images)
    (sourcesFound : ∀ format, w.sourceFiles format = .ok (sources format)) (r : Role) :
    w.filesOf r = .ok (r.filesIn w.root images sources) := by
  cases r with
  | image => exact filesOf_image tree root imagesFound
  | source f => exact sourcesFound f

namespace Collection

/-- All mentions of one reading are recorded with one path. -/
theorem filter_mentionsOf (c : w.Collection) (format : SourceFormat) (file p : Bytes) :
    (c.mentionsOf format file).filter (·.source = p) =
      if Path.seenFrom w.root file = p then c.mentionsOf format file else [] := by
  split
  · rename_i same
    apply List.filter_eq_self.mpr
    intro m hm
    obtain ⟨_, _, rfl⟩ := List.mem_map.mp hm
    exact decide_eq_true same
  · rename_i other
    apply List.filter_eq_nil_iff.mpr
    intro m hm
    obtain ⟨_, _, rfl⟩ := List.mem_map.mp hm
    exact fun same => other (of_decide_eq_true same)

/-- **What is recorded with the path of a source** is what the source mentions,
from one reading. -/
theorem filter_mentions (c : w.Collection) (tree : IsTree w.fs.top)
    (root : w.fs.lookup .follow w.root = .ok (.directory here listing)) {format : SourceFormat}
    {file : Bytes} (source : file ∈ c.sources format) :
    c.mentions.filter (·.source = Path.seenFrom w.root file) = c.mentionsOf format file := by
  have found (g : SourceFormat) : w.filesOf (.source g) = .ok (c.sources g) := c.sources_found g
  have one {g : SourceFormat} {path : Bytes} (h : path ∈ c.sources g)
      (same : Path.seenFrom w.root path = Path.seenFrom w.root file) :
      path = file ∧ g = format := by
    obtain ⟨equal, role⟩ := eq_of_seenFrom tree root (found g) (found format) h source same
    exact ⟨equal, Role.source.inj role⟩
  rw [mentions, List.filter_flatMap]
  simp only [List.filter_flatMap, filter_mentionsOf]
  rw [flatMap_eq_of_unique (b := format) (by decide), if_pos format.mem_all,
    flatMap_eq_of_unique (b := file), if_pos source, if_pos rfl]
  · exact nodup_filesOf tree root (found format)
  · intro path h other
    exact if_neg fun same => other (one h same).1
  · intro g _ other
    refine List.flatMap_eq_nil_iff.mpr fun path h => ?_
    exact if_neg fun same => other (one h same).2

theorem format_of_mem_mentions (c : w.Collection) (tree : IsTree w.fs.top)
    (root : w.fs.lookup .follow w.root = .ok (.directory here listing)) {format : SourceFormat}
    {file : Bytes} (source : file ∈ c.sources format) {m : SourceMention} (mem : m ∈ c.mentions)
    (recorded : m.source = Path.seenFrom w.root file) : m.format = format := by
  have read : m ∈ c.mentionsOf format file := by
    rw [← c.filter_mentions tree root source]
    exact List.mem_filter.mpr ⟨mem, decide_eq_true recorded⟩
  obtain ⟨_, _, rfl⟩ := List.mem_map.mp read
  rfl

end Collection

/-! ### The lists of a project -/

/-- **Each file is used once and in one role.**  Below a directory, where the walks
for the images and for the sources of each format succeed, the five lists, with
the root in front of the images again, have no path twice, neither in one list
nor in two, and hold together the paths of the files found whose names end in a
known extension.  So the sources that an audit counts are as many as there are
files with an extension of sources, and what is recorded with the path of a
source is what one reading of it gives, as a source of one format. -/
theorem each_file_in_one_role {images : List Bytes} {sources : SourceFormat → List Bytes}
    (tree : IsTree w.fs.top)
    (root : w.fs.lookup .follow w.root = .ok (.directory here listing))
    (imagesFound : w.imageFiles = .ok images)
    (sourcesFound : ∀ format, w.sourceFiles format = .ok (sources format)) :
    let lists := images.map (Path.join w.root) :: SourceFormat.all.map sources
    (∀ list ∈ lists, list.Nodup) ∧ lists.Pairwise List.Disjoint ∧
    (∀ path, path ∈ lists.flatten ↔
      ∃ l, w.FindsEnding listing knownExtensions l ∧ path = Path.joinAll w.root l) ∧
    (∀ report, w.audit = .ok report → ∃ ls : List Location, ls.Nodup ∧
      (∀ l, l ∈ ls ↔ w.FindsEnding listing sourceExtensions l) ∧
      report.totals.sources = ls.length) ∧
    ∀ s, w.survey = .ok s → ∀ format, ∀ file ∈ sources format,
      (∃ ms, mentionsIn w.fs w.root file format = .ok ms ∧
        s.mentions.filter (·.source = Path.seenFrom w.root file) = ms) ∧
      ∀ m ∈ s.mentions, m.source = Path.seenFrom w.root file → m.format = format := by
  intro lists
  have found := filesOf_eq tree root imagesFound sourcesFound
  have collected (c : w.Collection) : c.sources = sources := by
    funext format
    exact Except.ok.inj ((c.sources_found format).symm.trans (sourcesFound format))
  obtain ⟨ls, _, mem, paths, nodup⟩ := exists_locations tree root Role.nodup_all found
  have flat : lists.flatten = ls.map (Path.joinAll w.root) := paths
  obtain ⟨once, apart⟩ := List.nodup_flatten.mp (show lists.flatten.Nodup from nodup)
  refine ⟨once, apart, ?_, ?_, ?_⟩
  · intro path
    rw [flat, List.mem_map]
    simp only [mem]
    exact exists_congr fun l => and_congr_right fun _ => eq_comm
  · intro report audited
    obtain ⟨c, rfl⟩ := audit_eq_ok_iff.mp audited
    have formats : (SourceFormat.all.map Role.source).Nodup := by decide
    obtain ⟨ls, distinct, mem, paths, _⟩ := exists_locations tree root formats found
    refine ⟨ls, distinct, mem, ?_⟩
    rw [Survey.report_eq, Survey.totals_eq]
    show (SourceFormat.all.flatMap c.sources).length = _
    rw [collected c, ← List.length_map (Path.joinAll w.root), ← paths]
    rfl
  · intro s surveyed format file source
    obtain ⟨c, rfl⟩ := survey_eq_ok_iff.mp surveyed
    rw [← collected c] at source
    refine ⟨⟨_, c.mentionsIn_eq source, c.filter_mentions tree root source⟩, ?_⟩
    intro m hm recorded
    exact c.format_of_mem_mentions tree root source hm recorded

end Walk

/-- A project with names that are much alike: those of two sources differ in one
letter of the extension, an image has the extension of sources inside its name,
and of two further files only one has an extension that is known. -/
def mixedProject : Walk where
  fs := {
    top := [.directory (Utf8.encode "p".toList) [
      .file (Utf8.encode "a.m".toList) (Utf8.encode "[UIImage imageNamed:@\"a\"]".toList),
      .file (Utf8.encode "a.mm".toList) (Utf8.encode "[UIImage imageNamed:@\"a\"]".toList),
      .directory (Utf8.encode "d".toList) [
        .file (Utf8.encode "a.m.png".toList) [],
        .file (Utf8.encode "a.swift".toList) [],
        .file (Utf8.encode "a.mmm".toList) []]]]
    workingDirectory := [Utf8.encode "p".toList] }
  exclusion := .standard
  root := Utf8.encode ".".toList

theorem roles_of_mixedProject :
    let sources : SourceFormat → List Bytes
      | .objectiveC => [Utf8.encode "./a.m".toList, Utf8.encode "./a.mm".toList]
      | .swift => [Utf8.encode "./d/a.swift".toList]
      | _ => []
    let lists := [Utf8.encode "./d/a.m.png".toList] :: SourceFormat.all.map sources
    ∃ listing, IsTree mixedProject.fs.top ∧
      mixedProject.fs.lookup .follow mixedProject.root =
        .ok (.directory [Utf8.encode "p".toList] listing) ∧
      mixedProject.imageFiles = .ok [Utf8.encode "d/a.m.png".toList] ∧
      (∀ format, mixedProject.sourceFiles format = .ok (sources format)) ∧
      lists.Pairwise List.Disjoint ∧
      ∃ report, mixedProject.audit = .ok report ∧ ∃ ls : List Location, ls.Nodup ∧
        (∀ l, l ∈ ls ↔ mixedProject.FindsEnding listing sourceExtensions l) ∧
        ls.length = 3 := by
  intro sources lists
  have tree : IsTree mixedProject.fs.top := by decide
  have images : mixedProject.imageFiles = .ok [Utf8.encode "d/a.m.png".toList] := rfl
  have found : ∀ format, mixedProject.sourceFiles format = .ok (sources format) := by
    intro format
    cases format <;> rfl
  refine ⟨_, tree, rfl, images, found, ?_⟩
  obtain ⟨_, apart, _, counted, _⟩ := Walk.each_file_in_one_role tree rfl images found
  have audited : mixedProject.audit = .ok ⟨_, _⟩ := rfl
  obtain ⟨ls, distinct, mem, total⟩ := counted _ audited
  exact ⟨apart, _, audited, ls, distinct, mem, total.symm⟩

end AssetAudit

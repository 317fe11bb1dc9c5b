/-
AssetAudit/Proofs/Recording.lean

What is recorded of a file.

The path of an image file is recorded as seen from the root, and so is the path
of the source of a mention.  Of a file below a directory these are the names on
the way to it with slashes between them, the last of which is the name that the
file was found under (`Walk.exists_record`).

Where the root leads to a file, that file is all there is to find, and its path
is the root.  Seen from itself nothing is left of it: the record is empty,
whatever the file is called, and an image is put under the empty bundle name.

Main result: `Walk.recorded_paths_name_files`, for roots of either kind.
-/
import AssetAudit.Proofs.NameBytes
import AssetAudit.Proofs.Readable
import AssetAudit.Proofs.Shown

namespace AssetAudit

namespace Path

variable {base n : Bytes}

/-! ### The last name -/

/-- The last name of a location stands at the end of the text, alone or behind a
slash. -/
theorem intercalate_concat (above : Location) (n : Bytes) :
    [0x2F].intercalate (above ++ [n]) = n ∨
      ∃ d, [0x2F].intercalate (above ++ [n]) = d ++ 0x2F :: n := by
  induction above with
  | nil => exact .inl (List.intercalate_singleton ..)
  | cons m above ih =>
    right
    obtain ⟨k, rest, e⟩ := List.exists_cons_of_ne_nil (List.append_ne_nil_of_right_ne_nil above
      (List.cons_ne_nil n []))
    rw [List.cons_append, e, List.intercalate_cons_cons, ← e]
    rcases ih with alone | ⟨d, behind⟩
    · exact ⟨m, by rw [alone, List.append_assoc, List.singleton_append]⟩
    · exact ⟨m ++ [0x2F] ++ d, by rw [behind, List.append_assoc (m ++ [0x2F])]⟩

theorem fileName?_intercalate (above : Location) (name : IsEntryName n) :
    fileName? ([0x2F].intercalate (above ++ [n])) = some n := by
  rcases intercalate_concat above n with e | ⟨d, e⟩
  · rw [e, fileName?_of_segment name.2 name.1]
  · rw [e, fileName?_append_slash isSlash name.2 name.1]

theorem suffix_intercalate (above : Location) (n : Bytes) :
    n <:+ [0x2F].intercalate (above ++ [n]) := by
  rcases intercalate_concat above n with e | ⟨d, e⟩
  · exact ⟨[], e.symm⟩
  · rw [e]
    exact (List.suffix_cons ..).trans (List.suffix_append ..)

/-- Seen from itself a path is empty. -/
theorem seenFrom_self (h : base ≠ []) : seenFrom base base = [] :=
  seenFrom_joinAll (l := []) h (by simp)

/-- The bundle name of a path is that of its file name. -/
theorem bundleName_decodeLossy {p : Bytes} (name : IsEntryName n) (h : fileName? p = some n) :
    bundleName (Utf8.decodeLossy p) = bundleName (Utf8.decodeLossy n) := by
  rw [bundleName, bundleName, basename_decodeLossy h, basename_of_no_slash name.shown.2]

end Path

/-- A name that is shown with the extension of images ends in its bytes. -/
theorem suffix_of_isImageName {n : Bytes} (h : isImageName (Utf8.decodeLossy n) = true) :
    Utf8.encode imageExtension <:+ n := by
  rwa [isImageName_decodeLossy, endsInBytes_iff] at h

namespace Walk

variable {w : Walk} {here : Location} {listing : List Entry} {p : Bytes}

/-! ### Records -/

/-- The path `p` is recorded of the file `n` that was found in the directory at
`above`, and tells its name. -/
structure IsRecordOf (w : Walk) (listing : List Entry) (p : Bytes) (above : Location)
    (n : Bytes) : Prop where
  found : w.Finds w.root listing (above ++ [n])
  seen : p = [0x2F].intercalate (above ++ [n])
  named : Path.fileName? p = some n
  written : p ≠ []

theorem exists_kind_of_finds {l : Location} (finds : w.Finds w.root listing l) :
    ∃ k, kindBelow? listing l = some k := by
  obtain ⟨_, k, there, _⟩ := finds
  exact ⟨k, there⟩

/-- What is recorded of a file below a directory. -/
theorem exists_record {l : Location} (tree : IsTree w.fs.top)
    (root : w.fs.lookup .follow w.root = .ok (.directory here listing))
    (finds : w.Finds w.root listing l) :
    ∃ above n, l = above ++ [n] ∧ IsEntryName n ∧
      w.IsRecordOf listing (Path.seenFrom w.root (Path.joinAll w.root l)) above n := by
  have below := isTree_of_lookup tree root
  obtain ⟨k, there⟩ := exists_kind_of_finds finds
  have names := below.isEntryName_of_kindBelow? there
  have seen := FileSystem.seenFrom_joinAll below root there
  rcases List.eq_nil_or_concat l with rfl | ⟨above, n, rfl⟩
  · cases there
  rw [List.concat_eq_append] at *
  have name := names n (List.mem_append_right above (List.mem_singleton_self n))
  have named := Path.fileName?_intercalate above name
  refine ⟨above, n, rfl, name, finds, seen, seen ▸ named, ?_⟩
  rw [seen]
  intro empty
  rw [empty] at named
  cases named

/-- Below a directory the records of what is selected name the files. -/
theorem exists_record_of_select {wanted : Text → Bool} {fs : List Found} (tree : IsTree w.fs.top)
    (root : w.fs.lookup .follow w.root = .ok (.directory here listing))
    (h : w.select wanted = .ok fs) :
    ∀ f ∈ fs, ∃ above, f.path = Path.joinAll w.root (above ++ [f.name]) ∧ IsEntryName f.name ∧
      wanted (Utf8.decodeLossy f.name) = true ∧
      w.IsRecordOf listing (Path.seenFrom w.root f.path) above f.name := by
  obtain ⟨ls, rfl, mem, _⟩ := exists_of_select tree root h
  intro f hf
  obtain ⟨l, hl, rfl⟩ := List.mem_map.mp hf
  obtain ⟨finds, passes⟩ := (mem l).mp hl
  obtain ⟨above, n, rfl, name, record⟩ := exists_record tree root finds
  rw [foundOf_concat_name] at passes ⊢
  exact ⟨above, rfl, name, passes, record⟩

/-- What is made of the selected files is made of one of them. -/
theorem exists_selected {α : Type} {wanted : Text → Bool} {make : Found → α} {xs : List α} {x : α}
    (h : (w.select wanted).map (List.map make) = .ok xs) (mem : x ∈ xs) :
    ∃ fs, w.select wanted = .ok fs ∧ ∃ f ∈ fs, make f = x := by
  obtain ⟨fs, selected, rfl⟩ := Except.map_eq_ok_iff.mp h
  exact ⟨fs, selected, List.mem_map.mp mem⟩

theorem source_of_mem_mentionsIn {fs : FileSystem} {root file : Bytes} {format : SourceFormat}
    {ms : List SourceMention} {m : SourceMention} (h : mentionsIn fs root file format = .ok ms)
    (mem : m ∈ ms) : m.source = Path.seenFrom root file := by
  rw [mentionsIn] at h
  split at h
  · cases h
  · cases h
    obtain ⟨_, _, rfl⟩ := List.mem_map.mp mem
    rfl

/-- An image file below a directory is recorded with its name. -/
theorem exists_record_of_imageFiles {images : List Bytes} (tree : IsTree w.fs.top)
    (root : w.fs.lookup .follow w.root = .ok (.directory here listing))
    (h : w.imageFiles = .ok images) (mem : p ∈ images) :
    ∃ above n, IsEntryName n ∧ isImageName (Utf8.decodeLossy n) = true ∧
      w.IsRecordOf listing p above n := by
  obtain ⟨fs, selected, f, hf, rfl⟩ := exists_selected h mem
  obtain ⟨above, _, name, image, record⟩ := exists_record_of_select tree root selected f hf
  exact ⟨above, f.name, name, image, record⟩

/-- What a source below a directory mentions is recorded with the name of the
source. -/
theorem exists_record_of_sourceFiles {format : SourceFormat} {files : List Bytes} {file : Bytes}
    (tree : IsTree w.fs.top) (root : w.fs.lookup .follow w.root = .ok (.directory here listing))
    (h : w.sourceFiles format = .ok files) (mem : file ∈ files) :
    ∃ above n, file = Path.joinAll w.root (above ++ [n]) ∧
      format.isOf (Utf8.decodeLossy n) = true ∧
      ∀ ms, mentionsIn w.fs w.root file format = .ok ms →
        ∀ m ∈ ms, w.IsRecordOf listing m.source above n := by
  obtain ⟨fs, selected, f, hf, rfl⟩ := exists_selected h mem
  obtain ⟨above, path, _, source, record⟩ := exists_record_of_select tree root selected f hf
  refine ⟨above, f.name, path, source, ?_⟩
  intro ms read m hm
  rw [source_of_mem_mentionsIn read hm]
  exact record

/-! ### Roots that are files -/

/-- Where the root leads to a file, only that file is selected. -/
theorem eq_foundRoot_of_select {wanted : Text → Bool} {fs : List Found} {l : Location}
    {contents : Bytes} (root : w.fs.lookup .follow w.root = .ok (.file l contents))
    (h : w.select wanted = .ok fs) : ∀ f ∈ fs, f = w.foundRoot := by
  rw [select, Walk.found, root] at h
  obtain ⟨_, found, rfl⟩ := Except.map_eq_ok_iff.mp h
  cases found
  intro f hf
  exact List.mem_singleton.mp (List.mem_filter.mp hf).1

/-- And nothing is left of its path. -/
theorem seenFrom_of_select {wanted : Text → Bool} {fs : List Found} {l : Location}
    {contents : Bytes} (root : w.fs.lookup .follow w.root = .ok (.file l contents))
    (h : w.select wanted = .ok fs) : ∀ f ∈ fs, Path.seenFrom w.root f.path = [] := by
  obtain ⟨_, written, _⟩ := FileSystem.valid_of_lookup root
  intro f hf
  rw [eq_foundRoot_of_select root h f hf]
  exact Path.seenFrom_self written

/-! ### Roots of either kind -/

/-- **Below a directory a recorded path names its file, and of a root that is a
file nothing is recorded.**  The path of an image below a directory ends in the
name that the image was found under, hence in the extension, and the image is
added under the bundle name of that name; the path of a source ends in the name
of the source.  Where the root leads to a file these paths are empty, and an
image is added under the empty bundle name. -/
theorem recorded_paths_name_files (tree : IsTree w.fs.top) :
    (∀ here listing, w.fs.lookup .follow w.root = .ok (.directory here listing) →
      (∀ images, w.imageFiles = .ok images → ∀ p ∈ images, ∃ above n,
        w.IsRecordOf listing p above n ∧ Utf8.encode imageExtension <:+ p ∧
        ∀ c : Catalogue, c.addFile p =
          c.add (bundleName (Utf8.decodeLossy n)) [Utf8.decodeLossy p] []) ∧
      ∀ format files, w.sourceFiles format = .ok files → ∀ file ∈ files, ∃ above n,
        file = Path.joinAll w.root (above ++ [n]) ∧
        format.isOf (Utf8.decodeLossy n) = true ∧
        ∀ ms, mentionsIn w.fs w.root file format = .ok ms →
          ∀ m ∈ ms, w.IsRecordOf listing m.source above n) ∧
    ∀ l contents, w.fs.lookup .follow w.root = .ok (.file l contents) →
      (∀ images, w.imageFiles = .ok images → ∀ p ∈ images, p = [] ∧
        ∀ c : Catalogue, c.addFile p = c.add [] [[]] []) ∧
      ∀ format files, w.sourceFiles format = .ok files → ∀ file ∈ files,
        ∀ ms, mentionsIn w.fs w.root file format = .ok ms → ∀ m ∈ ms, m.source = [] := by
  refine ⟨?_, ?_⟩
  · intro here listing root
    refine ⟨?_, fun format files h file hfile => exists_record_of_sourceFiles tree root h hfile⟩
    intro images h p hp
    obtain ⟨above, n, name, image, record⟩ := exists_record_of_imageFiles tree root h hp
    refine ⟨above, n, record, ?_, ?_⟩
    · rw [record.seen]
      exact (suffix_of_isImageName image).trans (Path.suffix_intercalate above n)
    · intro c
      rw [Catalogue.addFile, Path.bundleName_decodeLossy name record.named]
  · intro l contents root
    refine ⟨?_, ?_⟩
    · intro images h p hp
      obtain ⟨fs, selected, f, hf, rfl⟩ := exists_selected h hp
      rw [seenFrom_of_select root selected f hf]
      exact ⟨rfl, fun _ => rfl⟩
    · intro format files h file hfile ms read m hm
      obtain ⟨fs, selected, f, hf, rfl⟩ := exists_selected h hfile
      rw [source_of_mem_mentionsIn read hm, seenFrom_of_select root selected f hf]

end Walk

/-- A project with an image and a source in directories of their own.  The name
of the image is not UTF-8. -/
def shelvedProject : Walk where
  fs := {
    top := [.directory (Utf8.encode "p".toList) [
      .directory (Utf8.encode "code".toList) [
        .file (Utf8.encode "A.m".toList) (Utf8.encode "imageNamed:@\"star\"".toList)],
      .directory (Utf8.encode "art".toList) [.file (0xFF :: Utf8.encode "@2x.png".toList) []]]]
    workingDirectory := [Utf8.encode "p".toList] }
  exclusion := .standard
  root := Utf8.encode "./".toList

theorem recorded_paths_of_shelvedProject :
    let image := Utf8.encode "art/".toList ++ 0xFF :: Utf8.encode "@2x.png".toList
    let source := Utf8.encode "code/A.m".toList
    IsTree shelvedProject.fs.top ∧ ∃ listing,
      shelvedProject.fs.lookup .follow shelvedProject.root =
        .ok (.directory [Utf8.encode "p".toList] listing) ∧
      shelvedProject.imageFiles = .ok [image] ∧
      (∃ above n, shelvedProject.IsRecordOf listing image above n) ∧
      ∃ file, shelvedProject.sourceFiles .objectiveC = .ok [file] ∧
        mentionsIn shelvedProject.fs shelvedProject.root file .objectiveC =
          .ok [⟨"star".toList, source, .objectiveC⟩] ∧
        ∃ above n, shelvedProject.IsRecordOf listing source above n := by
  intro image source
  have tree : IsTree shelvedProject.fs.top := by decide
  obtain ⟨listing, root⟩ : ∃ listing, shelvedProject.fs.lookup .follow shelvedProject.root =
      .ok (.directory [Utf8.encode "p".toList] listing) := ⟨_, rfl⟩
  obtain ⟨images, sources⟩ := (Walk.recorded_paths_name_files tree).1 _ _ root
  have found : shelvedProject.imageFiles = .ok [image] := by rfl
  obtain ⟨above, n, record, _, _⟩ := images _ found image (List.mem_singleton_self image)
  let file := Utf8.encode "./code/A.m".toList
  have files : shelvedProject.sourceFiles .objectiveC = .ok [file] := by rfl
  have read : mentionsIn shelvedProject.fs shelvedProject.root file .objectiveC =
      .ok [⟨"star".toList, source, .objectiveC⟩] := by rfl
  obtain ⟨above', n', _, _, records⟩ := sources _ _ files file (List.mem_singleton_self file)
  refine ⟨tree, listing, root, found, ⟨above, n, record⟩, file, files, read, above', n', ?_⟩
  exact records _ read _ (List.mem_singleton_self _)

/-- An image that is the root of the project itself. -/
def lonelyImage : Walk where
  fs := {
    top := [.file (Utf8.encode "logo.png".toList) []]
    workingDirectory := [] }
  exclusion := .standard
  root := Utf8.encode "logo.png".toList

/-- Its record is empty, and names neither the file nor its bundle. -/
theorem record_of_lonelyImage :
    IsTree lonelyImage.fs.top ∧ lonelyImage.imageFiles = .ok [[]] ∧
      lonelyImage.foundRoot.name = Utf8.encode "logo.png".toList ∧
      Path.fileName? ([] : Bytes) ≠ some (Utf8.encode "logo.png".toList) ∧
      ∃ s, lonelyImage.survey = .ok s ∧ s.catalogue.bundles = [[]] ∧
        bundleName "logo.png".toList ≠ [] :=
  ⟨by decide, by rfl, by rfl, by decide, ⟨[[]], [], []⟩, by rfl, by rfl, by decide⟩

end AssetAudit

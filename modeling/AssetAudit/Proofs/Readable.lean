/-
AssetAudit/Proofs/Readable.lean

What it takes for a project to be surveyed.

A survey rests on one walk, however often it is made: the images and the
sources of each format are chosen from what the walk finds.  So a survey comes
to a result if the walk does and the sources among what it finds can be read
(`Walk.Collection.ofFound`).

Whatever a walk finds can be read, as long as the system takes the paths below
the root (`Walk.readable_of_short`): a regular file is read by its path, and a
link is only found where it leads to a file.
-/
import AssetAudit.Proofs.Collection
import AssetAudit.Proofs.Descending
import AssetAudit.Proofs.Selection

namespace AssetAudit

namespace Walk

variable {w : Walk} {found : List Found} {f : Failure}

/-! ### One walk -/

/-- What is wanted does not decide whether the walk fails. -/
theorem select_eq_error_iff {wanted : Text → Bool} :
    w.select wanted = .error f ↔ w.found = .error f :=
  Except.map_eq_error_iff

theorem imageFiles_eq_error_iff : w.imageFiles = .error f ↔ w.found = .error f :=
  Except.map_eq_error_iff.trans select_eq_error_iff

/-- The sources of a format among what was found. -/
def sourcesOf (found : List Found) (format : SourceFormat) : List Bytes :=
  (found.filter fun f => format.isOf (Utf8.decodeLossy f.name)).map Found.path

theorem mem_sourcesOf {format : SourceFormat} {path : Bytes} :
    path ∈ sourcesOf found format ↔
      ∃ file ∈ found, format.isOf (Utf8.decodeLossy file.name) = true ∧ file.path = path := by
  rw [sourcesOf, List.mem_map]
  simp only [List.mem_filter, and_assoc]

theorem sourcesOf_append (found more : List Found) (format : SourceFormat) :
    sourcesOf (found ++ more) format = sourcesOf found format ++ sourcesOf more format := by
  rw [sourcesOf, List.filter_append, List.map_append]
  rfl

theorem sourcesOf_cons (file : Found) (found : List Found) (format : SourceFormat) :
    sourcesOf (file :: found) format =
      (if format.isOf (Utf8.decodeLossy file.name) then [file.path] else []) ++
        sourcesOf found format := by
  rw [sourcesOf, List.filter_cons]
  split <;> rfl

theorem sourceFiles_of_found (h : w.found = .ok found) (format : SourceFormat) :
    w.sourceFiles format = .ok (sourcesOf found format) := by
  rw [sourceFiles, select, h]
  rfl

/-- What is collected are the sources among what was found. -/
theorem Collection.sources_eq (c : w.Collection) (h : w.found = .ok found) :
    c.sources = sourcesOf found := by
  funext format
  have collected := c.sources_found format
  rw [sourceFiles_of_found h] at collected
  exact (Except.ok.inj collected).symm

/-- The sources among what was found can be read. -/
def Readable (w : Walk) (found : List Found) : Prop :=
  ∀ file ∈ found, ∀ format : SourceFormat, format.isOf (Utf8.decodeLossy file.name) = true →
    ∃ contents, w.fs.readFile file.path = .ok contents

/-- What is collected where a walk finds all there is, and the sources can be
read. -/
def Collection.ofFound (h : w.found = .ok found) (readable : w.Readable found) :
    w.Collection where
  images := (found.filter fun f => isImageName (Utf8.decodeLossy f.name)).map
    fun f => Path.seenFrom w.root f.path
  sources := sourcesOf found
  contents file := (w.fs.readFile file).toOption.getD []
  images_found := by
    rw [imageFiles, select, h]
    rfl
  sources_found := sourceFiles_of_found h
  contents_read := by
    intro format path source
    obtain ⟨file, mem, named, rfl⟩ := mem_sourcesOf.mp source
    obtain ⟨contents, read⟩ := readable file mem format named
    rw [read]
    rfl

/-- A walk that fails ends the audit with its failure. -/
theorem audit_of_error (h : w.found = .error f) : w.audit = .error f := by
  rw [audit, collect, imageFiles_eq_error_iff.mpr h]
  rfl

theorem audit_of_readable (h : w.found = .ok found) (readable : w.Readable found) :
    w.audit = .ok (Collection.ofFound h readable).toSurvey.report :=
  audit_eq_ok_iff.mpr ⟨_, rfl⟩

/-- With all found, the audit has a result exactly if the sources can be
read. -/
theorem exists_audit_iff (h : w.found = .ok found) :
    (∃ r, w.audit = .ok r) ↔ w.Readable found := by
  constructor
  · rintro ⟨r, audited⟩ file mem format named
    obtain ⟨c, _⟩ := audit_eq_ok_iff.mp audited
    refine ⟨c.contents file.path, c.contents_read format _ ?_⟩
    rw [c.sources_eq h]
    exact mem_sourcesOf.mpr ⟨file, mem, named, rfl⟩
  · intro readable
    exact ⟨_, audit_of_readable h readable⟩

/-- With all found, an audit that fails does so at a source that cannot be
read. -/
theorem exists_unread_of_error (h : w.found = .ok found) (fails : w.audit = .error f) :
    ∃ file ∈ found, (∃ format : SourceFormat, format.isOf (Utf8.decodeLossy file.name) = true) ∧
      ∃ cause, w.fs.readFile file.path = .error cause ∧ f = .read file.path cause := by
  have images : w.imageFiles ≠ .error f := by
    intro failed
    rw [imageFiles, select, h] at failed
    cases failed
  rw [audit_eq, Except.map_eq_error_iff] at fails
  have parts := (Except.bind_eq_error_iff.mp fails).resolve_left images
  obtain ⟨_, _, parts⟩ := parts
  obtain ⟨format, _, failed⟩ := exists_of_mapM_eq_error (Except.eq_error_of_bind_pure parts)
  -- the sources of the format are found, so one of them cannot be read
  rw [surveyFormat, sourceFiles_of_found h, Except.ok_bind] at failed
  obtain ⟨path, source, unread⟩ := exists_of_mapM_eq_error (Except.eq_error_of_bind_pure failed)
  obtain ⟨file, mem, named, rfl⟩ := mem_sourcesOf.mp source
  refine ⟨file, mem, ⟨format, named⟩, ?_⟩
  rw [mentionsIn] at unread
  split at unread
  · rename_i cause e
    exact ⟨cause, e, (Except.error.inj unread).symm⟩
  · cases unread

/-- Walks that select the same, and read the same of it, make the same audit. -/
theorem audit_congr {w' : Walk} (root : w'.root = w.root)
    (images : w'.select isImageName = w.select isImageName)
    (sources : ∀ format : SourceFormat, w'.select format.isOf = w.select format.isOf)
    (read : ∀ found, w.found = .ok found → ∀ file ∈ found,
      w'.fs.readFile file.path = w.fs.readFile file.path) : w'.audit = w.audit := by
  have formats : w'.surveyFormat = w.surveyFormat := by
    funext format
    have files : w'.sourceFiles format = w.sourceFiles format := by
      rw [sourceFiles, sourceFiles, sources]
    rw [surveyFormat, surveyFormat, files]
    cases chosen : w.sourceFiles format with
    | error f => rfl
    | ok paths =>
      have same : paths.mapM (fun file => mentionsIn w'.fs w'.root file format) =
          paths.mapM fun file => mentionsIn w.fs w.root file format := by
        apply mapM_congr
        intro path mem
        obtain ⟨selected, e, rfl⟩ := Except.map_eq_ok_iff.mp chosen
        obtain ⟨found, h, rfl⟩ := Except.map_eq_ok_iff.mp e
        obtain ⟨file, chosen, rfl⟩ := List.mem_map.mp mem
        rw [mentionsIn, mentionsIn, read found h file (List.mem_filter.mp chosen).1, root]
      rw [Except.ok_bind, Except.ok_bind, same]
  rw [audit_eq, audit_eq, survey, survey, imageFiles, imageFiles, images, root, formats]

/-! ### What is found can be read -/

theorem exists_found_of_short {here : Location} {listing : List Entry} (tree : IsTree w.fs.top)
    (root : w.fs.lookup .follow w.root = .ok (.directory here listing))
    (short : KeepsShort w.root listing) : ∃ found, w.found = .ok found := by
  have answers := answers_found tree root
  cases h : w.found with
  | ok found => exact ⟨found, rfl⟩
  | error f =>
    rw [h] at answers
    obtain ⟨l, ⟨_, k, there, _, long⟩, _⟩ := answers
    exact absurd (short l k there) (Nat.not_lt_of_le long)

/-- What is found below a directory can be read, if the paths are short enough. -/
theorem readable_of_short {here : Location} {listing : List Entry} (tree : IsTree w.fs.top)
    (root : w.fs.lookup .follow w.root = .ok (.directory here listing))
    (kept : KeepsNames listing) (short : KeepsShort w.root listing) (h : w.found = .ok found) :
    w.Readable found := by
  have answers := answers_found tree root
  rw [h] at answers
  obtain ⟨_, ls, rfl, _, mem⟩ := answers
  intro file hfile format _
  obtain ⟨l, hl, rfl⟩ := List.mem_map.mp hfile
  obtain ⟨_, k, there, holds⟩ := (mem l).mp hl
  show ∃ contents, w.fs.readFile (Path.joinAll w.root l) = .ok contents
  cases k with
  | file contents =>
    rw [FileSystem.readFile_joinAll (isTree_of_lookup tree root) kept root there,
      if_pos (short l _ there)]
    exact ⟨contents, rfl⟩
  | link target => exact FileSystem.readFile_of_isFile holds
  | directory => cases holds

/-- The system takes all names and paths below the root. -/
def Fits (w : Walk) : Prop :=
  ∀ here listing, w.fs.lookup .follow w.root = .ok (.directory here listing) →
    KeepsNames listing ∧ KeepsShort w.root listing

theorem found_of_error {cause : LookupError} (root : w.fs.lookup .follow w.root = .error cause) :
    w.found = .error (.walk w.root w.root cause) := by
  rw [Walk.found, root]

/-- Where the root leads to something, there is something to survey. -/
theorem exists_readable_of_lookup {p : Place} (tree : IsTree w.fs.top) (fits : w.Fits)
    (root : w.fs.lookup .follow w.root = .ok p) :
    ∃ found, w.found = .ok found ∧ w.Readable found := by
  rcases FileSystem.directory_or_file_of_lookup root with
    ⟨here, listing, rfl⟩ | ⟨l, contents, rfl⟩
  · obtain ⟨kept, short⟩ := fits here listing root
    obtain ⟨found, h⟩ := exists_found_of_short tree root short
    exact ⟨found, h, readable_of_short tree root kept short h⟩
  · -- the root itself is found, and read
    refine ⟨[w.foundRoot], by rw [Walk.found, root], ?_⟩
    intro file mem _ _
    rw [List.mem_singleton.mp mem]
    exact ⟨contents, by rw [foundRoot, FileSystem.readFile, root]⟩

end Walk

end AssetAudit

/-
AssetAudit/Proofs/Selection.lean

What a walk selects.

The files that a walk returns below a directory, their order, and where it
fails are told by what the locations below the directory lead to.  As nothing
else matters, a walk returns the same however the directories are listed
(`Walk.found_of_reordered`).

The system refuses a path of 4096 bytes or more, and the paths of a walk begin
with the path of the root as it is written.  So a walk can fail at a directory
that is there.
-/
import AssetAudit.Proofs.Lookup
import AssetAudit.Proofs.Traversal
import AssetAudit.Source.Format

namespace AssetAudit

namespace Walk

variable {w : Walk} {base : Bytes} {here : Location} {listing : List Entry}

/-! ### Files that are selected -/

theorem found_of_lookup (root : w.fs.lookup .follow w.root = .ok (.directory here listing)) :
    w.found = gather (w.foundBelow w.root listing) := by
  rw [found, root]

/-- What a directory of a tree is found to list is a tree. -/
theorem isTree_of_lookup (tree : IsTree w.fs.top)
    (root : w.fs.lookup .follow w.root = .ok (.directory here listing)) : IsTree listing :=
  tree.of_listingAt? (FileSystem.listingAt?_of_lookup root)

theorem answers_found (tree : IsTree w.fs.top)
    (root : w.fs.lookup .follow w.root = .ok (.directory here listing)) :
    w.Answers w.root listing w.found := by
  rw [found_of_lookup root]
  exact answers_gather (isTree_of_lookup tree root) w.root

/-- A result rests on which paths lead to files, not on the tree otherwise. -/
theorem Answers.of_sameFiles {fs : FileSystem} {r : Except Failure (List Found)}
    (files : ∀ path, fs.isFile path = w.fs.isFile path)
    (h : ({ w with fs := fs } : Walk).Answers base listing r) : w.Answers base listing r := by
  have holds : ({ w with fs := fs } : Walk).holdsFile = w.holdsFile := by
    funext path k
    cases k with
    | link _ => exact files path
    | _ => rfl
  refine h.congr rfl (fun _ => Iff.rfl) ?_
  intro l
  simp only [Finds, holds]
  exact Iff.rfl

/-- A walk finds the same in every order of the listings. -/
theorem found_of_reordered {top : List Entry} (tree : IsTree w.fs.top)
    (root : w.fs.lookup .follow w.root = .ok (.directory here listing))
    (same : Reordered w.fs.top top) :
    ({ w with fs := ⟨top, w.fs.workingDirectory⟩ } : Walk).found = w.found := by
  have locations := same.kindBelow?_eq tree
  obtain ⟨listing', root', inside⟩ := FileSystem.lookup_directory_of_same locations root
  have answers := answers_found (w := { w with fs := ⟨top, w.fs.workingDirectory⟩ })
    (same.isTree tree) root'
  -- links are looked up in the whole tree, not only below the root
  have files : ∀ path, FileSystem.isFile ⟨top, w.fs.workingDirectory⟩ path = w.fs.isFile path := by
    intro path
    exact (FileSystem.isFile_of_same locations path).symm
  have answers := (answers.of_sameFiles files).of_same inside.symm
  exact answers.unique (answers_found tree root)

/-- Locations below a directory of a tree are told apart by their paths. -/
theorem nodup_paths (tree : IsTree listing) {ls : List Location} (distinct : ls.Nodup)
    (there : ∀ l ∈ ls, ∃ k, kindBelow? listing l = some k) :
    (ls.map (Path.joinAll base)).Nodup := by
  refine distinct.map_on ?_
  intro l hl m hm same
  obtain ⟨_, hl⟩ := there l hl
  obtain ⟨_, hm⟩ := there m hm
  exact Path.joinAll_injective (tree.isEntryName_of_kindBelow? hl)
    (tree.isEntryName_of_kindBelow? hm) same

/-! ### The selection -/

theorem select_of_stops (answers : w.Answers w.root listing w.found) (wanted : Text → Bool)
    (h : ∃ l, w.Stops w.root listing l) :
    ∃ first, w.Stops w.root listing first ∧ (∀ l, w.Stops w.root listing l → first ≤ l) ∧
      w.select wanted = .error (.walk w.root (Path.joinAll w.root first) .nameTooLong) := by
  obtain ⟨l, stop⟩ := h
  cases found : w.found with
  | ok fs =>
    rw [found] at answers
    exact absurd stop (answers.1 l)
  | error f =>
    rw [found] at answers
    obtain ⟨first, stops, least, rfl⟩ := answers
    refine ⟨first, stops, least, ?_⟩
    rw [select, found]
    rfl

theorem select_ne_ok {l : Location} (tree : IsTree w.fs.top)
    (root : w.fs.lookup .follow w.root = .ok (.directory here listing))
    (stop : w.Stops w.root listing l) (wanted : Text → Bool) (fs : List Found) :
    w.select wanted ≠ .ok fs := by
  intro selected
  obtain ⟨_, _, _, fails⟩ := select_of_stops (answers_found tree root) wanted ⟨l, stop⟩
  rw [selected] at fails
  cases fails

theorem select_of_free (answers : w.Answers w.root listing w.found) (wanted : Text → Bool)
    (h : ∀ l, ¬w.Stops w.root listing l) :
    ∃ ls : List Location, w.select wanted = .ok (ls.map (foundOf w.root)) ∧
      (∀ l, l ∈ ls ↔ w.Finds w.root listing l ∧
        wanted (Utf8.decodeLossy (foundOf w.root l).name) = true) ∧
      ls.Pairwise (· < ·) := by
  cases found : w.found with
  | error f =>
    rw [found] at answers
    obtain ⟨l, stop, _⟩ := answers
    exact absurd stop (h l)
  | ok fs =>
    rw [found] at answers
    obtain ⟨_, ls, rfl, sorted, mem⟩ := answers
    let keep (l : Location) : Bool := wanted (Utf8.decodeLossy (foundOf w.root l).name)
    refine ⟨ls.filter keep, ?_, ?_, sorted.filter keep⟩
    · rw [select, found]
      show Except.ok ((ls.map _).filter fun f : Found => wanted (Utf8.decodeLossy f.name)) = _
      rw [List.filter_map]
      rfl
    · intro l
      rw [List.mem_filter, mem]

/-- What is selected below a directory are the wanted files to be found there,
in ascending order of their locations. -/
theorem exists_of_select {wanted : Text → Bool} {fs : List Found} (tree : IsTree w.fs.top)
    (root : w.fs.lookup .follow w.root = .ok (.directory here listing))
    (h : w.select wanted = .ok fs) :
    ∃ ls : List Location, fs = ls.map (foundOf w.root) ∧
      (∀ l, l ∈ ls ↔ w.Finds w.root listing l ∧
        wanted (Utf8.decodeLossy (foundOf w.root l).name) = true) ∧
      ls.Pairwise (· < ·) := by
  have free : ∀ l, ¬w.Stops w.root listing l :=
    fun l stop => select_ne_ok tree root stop wanted fs h
  obtain ⟨ls, selected, mem, sorted⟩ := select_of_free (answers_found tree root) wanted free
  exact ⟨ls, Except.ok.inj (h.symm.trans selected), mem, sorted⟩

/-- **What a walk selects below a directory.**  If some directory below the
root, not left out itself nor below one that is, has a path of 4096 bytes or
more, the walk fails, and names the first of them.  Otherwise it returns the
files, and the links whose paths lead to a file, that have a wanted name and
are not left out nor below a directory that is: each of them once, by a path of
its own, in ascending order of their locations, and none behind a link.  All
this does not depend on the order of the listings. -/
theorem select_of_directory (tree : IsTree w.fs.top)
    (root : w.fs.lookup .follow w.root = .ok (.directory here listing)) (wanted : Text → Bool) :
    ((∃ l, w.Stops w.root listing l) →
      ∃ first, w.Stops w.root listing first ∧ (∀ l, w.Stops w.root listing l → first ≤ l) ∧
        w.select wanted = .error (.walk w.root (Path.joinAll w.root first) .nameTooLong)) ∧
    ((∀ l, ¬w.Stops w.root listing l) →
      ∃ ls : List Location, w.select wanted = .ok (ls.map (foundOf w.root)) ∧
        (∀ l, l ∈ ls ↔ w.Finds w.root listing l ∧
          wanted (Utf8.decodeLossy (foundOf w.root l).name) = true) ∧
        ls.Pairwise (· < ·) ∧
        (ls.map (Path.joinAll w.root)).Nodup ∧
        ∀ l ∈ ls, ∀ above below, l = above ++ below → above ≠ [] → below ≠ [] →
          kindBelow? listing above = some .directory) ∧
    ∀ top, Reordered w.fs.top top →
      ({ w with fs := ⟨top, w.fs.workingDirectory⟩ } : Walk).select wanted = w.select wanted := by
  have answers := answers_found tree root
  refine ⟨select_of_stops answers wanted, ?_, ?_⟩
  · intro free
    obtain ⟨ls, selected, mem, sorted⟩ := select_of_free answers wanted free
    have there : ∀ l ∈ ls, ∃ k, kindBelow? listing l = some k := by
      intro l hl
      obtain ⟨⟨_, k, found, _⟩, _⟩ := (mem l).mp hl
      exact ⟨k, found⟩
    refine ⟨ls, selected, mem, sorted, nodup_paths (isTree_of_lookup tree root) sorted.nodup there,
      ?_⟩
    rintro l hl above below rfl ha hb
    obtain ⟨k, hk⟩ := there _ hl
    exact kindBelow?_of_isPrefix hk ha hb
  · intro top same
    rw [select, select, found_of_reordered tree root same]

end Walk

/-- A project with a file, three links — to a file, to a directory and to
itself —, a directory and a hidden one. -/
def linkedProject : Walk where
  fs := {
    top := [.directory (Utf8.encode "p".toList) [
      .link (Utf8.encode "z.png".toList) (Utf8.encode "a/b.png".toList),
      .link (Utf8.encode "d".toList) (Utf8.encode "a".toList),
      .link (Utf8.encode "l.png".toList) (Utf8.encode "l.png".toList),
      .directory (Utf8.encode ".h".toList) [.file (Utf8.encode "c.png".toList) []],
      .file (Utf8.encode "a.png".toList) [],
      .directory (Utf8.encode "a".toList) [.file (Utf8.encode "b.png".toList) []]]]
    workingDirectory := [Utf8.encode "p".toList] }
  exclusion := .standard
  root := Utf8.encode ".".toList

theorem selection_of_linkedProject :
    IsTree linkedProject.fs.top ∧ ∃ listing,
      linkedProject.fs.lookup .follow linkedProject.root =
        .ok (.directory [Utf8.encode "p".toList] listing) ∧
      ∃ ls : List Location,
        ls.map (Path.joinAll linkedProject.root) = [Utf8.encode "./a/b.png".toList,
          Utf8.encode "./a.png".toList, Utf8.encode "./z.png".toList] ∧
        ∀ l, l ∈ ls ↔ linkedProject.Finds linkedProject.root listing l ∧
          isImageName (Utf8.decodeLossy (Walk.foundOf linkedProject.root l).name) = true := by
  have tree : IsTree linkedProject.fs.top := by decide
  refine ⟨tree, _, rfl, ?_⟩
  obtain ⟨stops, free, _⟩ := Walk.select_of_directory tree rfl isImageName
  have selected : (linkedProject.select isImageName).toOption.map (·.map Found.path) =
      some [Utf8.encode "./a/b.png".toList, Utf8.encode "./a.png".toList,
        Utf8.encode "./z.png".toList] := by
    rfl
  -- a place to stop at would have made the walk fail
  obtain ⟨ls, ok, mem, _⟩ := free fun l stop => by
    obtain ⟨_, _, _, fails⟩ := stops ⟨l, stop⟩
    rw [fails] at selected
    cases selected
  rw [ok] at selected
  have paths : (ls.map (Walk.foundOf linkedProject.root)).map Found.path = _ :=
    Option.some.inj selected
  rw [List.map_map] at paths
  exact ⟨ls, paths, mem⟩

/-- A project whose root is written with 4093 bytes. -/
def farProject : Walk where
  fs := {
    top := [.directory (Utf8.encode "p".toList) [
      .file (Utf8.encode "a.png".toList) [],
      .directory (Utf8.encode "dd".toList) [.file (Utf8.encode "x.png".toList) []]]]
    workingDirectory := [Utf8.encode "p".toList] }
  exclusion := .standard
  root := 0x2E :: (List.replicate 2046 [0x2F, 0x2E]).flatten

/-- Its root is a directory with a file to be found, but the walk fails. -/
theorem farProject_select_fails :
    IsTree farProject.fs.top ∧ ∃ listing,
      farProject.fs.lookup .follow farProject.root =
        .ok (.directory [Utf8.encode "p".toList] listing) ∧
      farProject.Finds farProject.root listing [Utf8.encode "a.png".toList] ∧
      ∀ wanted found, farProject.select wanted ≠ .ok found := by
  let a := Utf8.encode "a.png".toList
  let d := Utf8.encode "dd".toList
  let root := farProject.root
  have tree : IsTree farProject.fs.top := by decide
  have still : ∀ s ∈ Path.segments root, (s.isEmpty || Path.isDot s) = true := by decide +kernel
  have there : farProject.fs.lookup .follow root = .ok (.directory [Utf8.encode "p".toList] _) :=
    FileSystem.lookup_of_still (by decide +kernel) rfl (by decide +kernel) rfl still rfl
  have shown : farProject.leavesOut a (Path.join root a) = false := by decide +kernel
  have file : ∀ path, farProject.holdsFile path (.file []) = true := fun _ => rfl
  have kept : farProject.leavesOut d (Path.join root d) = false := by decide +kernel
  have long : pathLimit ≤ (Path.joinAll root [d]).length := by decide +kernel
  refine ⟨tree, _, there, ?_, Walk.select_ne_ok (l := [d]) tree there ?_⟩
  · exact ⟨Walk.keeps_cons.mpr ⟨shown, Walk.keeps_nil⟩, .file [], rfl, file _⟩
  · exact ⟨Walk.keeps_cons.mpr ⟨kept, Walk.keeps_nil⟩, .directory, rfl, rfl, long⟩

end AssetAudit

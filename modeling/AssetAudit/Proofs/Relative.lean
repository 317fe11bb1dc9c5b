/-
AssetAudit/Proofs/Relative.lean

Paths as seen from the root.

A walk looks at its paths from the root in two places: where it decides what to
leave out, and where a file is recorded.  A path that is not under the root would
be taken as it is there.  This does not happen: a path of the walk is the root with
names joined to it, and the root comes off it again, however it is written
(`Path.stripWith?_joinAll`).

So what a walk leaves out is told by names alone (`Walk.leavesOut_joinAll`), and
what is recorded of the files of a directory are the names that lead to them
(`Walk.imageFiles_eq_intercalate`).

Main result: `Walk.root_comes_off`.
-/
import AssetAudit.Proofs.Pruning
import AssetAudit.Proofs.Recording

namespace AssetAudit

namespace Walk

variable {w : Walk} {here : Location} {listing : List Entry} {l : Location}

/-! ### Below a directory -/

section Directory

variable (tree : IsTree w.fs.top)
  (root : w.fs.lookup .follow w.root = .ok (.directory here listing))

include tree root

/-- Whatever is there is under the root. -/
theorem stripWith?_of_kindBelow? {k : Kind} (there : kindBelow? listing l = some k) :
    Path.stripWith? 0x2F w.root (Path.joinAll w.root l) = some ([0x2F].intercalate l) := by
  obtain ⟨_, written, _⟩ := FileSystem.valid_of_lookup root
  exact Path.stripWith?_joinAll written
    ((isTree_of_lookup tree root).isEntryName_of_kindBelow? there)

/-- So is what is selected. -/
theorem stripWith?_of_select {wanted : Text → Bool} {fs : List Found}
    (h : w.select wanted = .ok fs) :
    ∃ ls : List Location, (∀ l ∈ ls, w.Finds w.root listing l) ∧ fs = ls.map (foundOf w.root) ∧
      ∀ l ∈ ls, Path.stripWith? 0x2F w.root (foundOf w.root l).path =
        some ([0x2F].intercalate l) := by
  obtain ⟨ls, rfl, mem, _⟩ := exists_of_select tree root h
  have finds : ∀ l ∈ ls, w.Finds w.root listing l := fun l hl => ((mem l).mp hl).1
  refine ⟨ls, finds, rfl, ?_⟩
  intro l hl
  obtain ⟨k, there⟩ := exists_kind_of_finds (finds l hl)
  exact stripWith?_of_kindBelow? tree root there

/-- The images below a directory are recorded by the names that lead to them. -/
theorem imageFiles_eq_intercalate {images : List Bytes} (h : w.imageFiles = .ok images) :
    ∃ ls : List Location, (∀ l ∈ ls, w.Finds w.root listing l) ∧
      images = ls.map ([0x2F].intercalate ·) := by
  obtain ⟨fs, selected, rfl⟩ := Except.map_eq_ok_iff.mp h
  obtain ⟨ls, finds, rfl, under⟩ := stripWith?_of_select tree root selected
  refine ⟨ls, finds, ?_⟩
  rw [List.map_map]
  apply List.map_congr_left
  intro l hl
  rw [Function.comp_apply, Path.seenFrom, under l hl, Option.getD_some]

end Directory

/-! ### Below any path -/

/-- **The root comes off what is joined to it.**  However the root is written, a path
that is made of it and the names of entries is under it, and the names are left with
single slashes between them; this is what the path is seen as, and what decides
whether it is left out.  So below a directory no path is ever taken as it is: not
where the walk goes, nor of what it finds, nor of the images that are recorded. -/
theorem root_comes_off (written : w.root ≠ []) :
    (∀ l : Location, (∀ n ∈ l, IsEntryName n) →
      Path.stripWith? 0x2F w.root (Path.joinAll w.root l) = some ([0x2F].intercalate l) ∧
      Path.seenFrom w.root (Path.joinAll w.root l) = [0x2F].intercalate l ∧
      ∀ n, w.leavesOut n (Path.joinAll w.root l) =
        w.exclusion.leavesOut n ([0x2F].intercalate l)) ∧
    ∀ here listing, IsTree w.fs.top →
      w.fs.lookup .follow w.root = .ok (.directory here listing) →
      (∀ l k, kindBelow? listing l = some k →
        Path.stripWith? 0x2F w.root (Path.joinAll w.root l) = some ([0x2F].intercalate l) ∧
        (w.Keeps w.root l ↔ w.exclusion.Admits [] l)) ∧
      (∀ wanted fs, w.select wanted = .ok fs →
        ∃ ls : List Location, (∀ l ∈ ls, w.Finds w.root listing l) ∧
          fs = ls.map (foundOf w.root) ∧
          ∀ l ∈ ls, Path.stripWith? 0x2F w.root (foundOf w.root l).path =
            some ([0x2F].intercalate l)) ∧
      ∀ images, w.imageFiles = .ok images →
        ∃ ls : List Location, (∀ l ∈ ls, w.Finds w.root listing l) ∧
          images = ls.map ([0x2F].intercalate ·) := by
  refine ⟨?_, ?_⟩
  · intro l names
    exact ⟨Path.stripWith?_joinAll written names, Path.seenFrom_joinAll written names,
      leavesOut_joinAll written names⟩
  · intro here listing tree root
    refine ⟨?_, ?_, fun images h => imageFiles_eq_intercalate tree root h⟩
    · intro l k there
      have names := (isTree_of_lookup tree root).isEntryName_of_kindBelow? there
      exact ⟨stripWith?_of_kindBelow? tree root there, keeps_iff_admits written names⟩
    · intro wanted fs h
      exact stripWith?_of_select tree root h

end Walk

/-- A directory with an image whose name is not UTF-8, and with another directory
that is left out by its path. -/
def shelves : List Entry := [
  .directory (Utf8.encode "art".toList) [
    .directory (Utf8.encode "b".toList) [.file (0xFF :: Utf8.encode ".png".toList) []],
    .directory (Utf8.encode "old".toList) [.file (Utf8.encode "x.png".toList) []]]]

/-- A project whose root goes down and up again, with dots and doubled slashes on
the way and slashes at its end. -/
def windingProject : Walk where
  fs := {
    top := [.directory (Utf8.encode "p".toList) shelves]
    workingDirectory := [Utf8.encode "p".toList] }
  exclusion := ⟨["art/old".toList.map .literal], true⟩
  root := Utf8.encode ".//art/./../../p//".toList

/-- Both the path that is left out and the one that is recorded are told without
the root. -/
theorem root_comes_off_of_windingProject :
    let old := Utf8.encode "old".toList
    let place := [Utf8.encode "art".toList, old]
    let image := Utf8.encode "art/b/".toList ++ 0xFF :: Utf8.encode ".png".toList
    windingProject.root ≠ [] ∧ (∀ n ∈ place, IsEntryName n) ∧
      Path.joinAll windingProject.root place =
        Utf8.encode ".//art/./../../p//art/old".toList ∧
      Path.stripWith? 0x2F windingProject.root (Path.joinAll windingProject.root place) =
        some (Utf8.encode "art/old".toList) ∧
      windingProject.leavesOut old (Path.joinAll windingProject.root place) = true ∧
      IsTree windingProject.fs.top ∧
      windingProject.fs.lookup .follow windingProject.root =
        .ok (.directory [Utf8.encode "p".toList] shelves) ∧
      ¬windingProject.Keeps windingProject.root place ∧
      windingProject.imageFiles = .ok [image] ∧
      ∃ ls : List Location, (∀ l ∈ ls, windingProject.Finds windingProject.root shelves l) ∧
        [image] = ls.map ([0x2F].intercalate ·) := by
  intro old place image
  have written : windingProject.root ≠ [] := by decide
  have names : ∀ n ∈ place, IsEntryName n := by decide
  have tree : IsTree windingProject.fs.top := by decide
  have root : windingProject.fs.lookup .follow windingProject.root =
      .ok (.directory [Utf8.encode "p".toList] shelves) := rfl
  obtain ⟨paths, projects⟩ := Walk.root_comes_off written
  obtain ⟨under, _, told⟩ := paths place names
  obtain ⟨entries, _, recorded⟩ := projects _ _ tree root
  have cut : windingProject.exclusion.leavesOut old (Utf8.encode "art/old".toList) = true := rfl
  have out : ¬windingProject.exclusion.Admits [] place := by
    intro admitted
    have kept := admitted [Utf8.encode "art".toList] old List.prefix_rfl
    cases cut.symm.trans kept
  have images : windingProject.imageFiles = .ok [image] := rfl
  exact ⟨written, names, rfl, under, (told old).trans cut, tree, root,
    fun kept => out ((entries place .directory rfl).2.mp kept), images, recorded _ images⟩

end AssetAudit

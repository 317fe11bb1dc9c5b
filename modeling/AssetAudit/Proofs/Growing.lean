/-
AssetAudit/Proofs/Growing.lean

What more files do to the findings on an image.

A variant is missing where all files of an image fail a test, so a file that is
added can only bring the variant.  This needs that there is a file already:
without files nothing is missing but the files themselves, and the first one can
make variants missing.  Files that have one name go on having it, and the file
that stands for the image stays the first.

`Asset.Grows a b` says all this of an image before and after.  It is kept by
each file that is added (`grows_withFile`), hence by a run of them
(`grows_foldl_withFile`), and it decides over the findings
(`Grows.mem_or_duplicates`).

Main result: `Asset.findings_of_more_files`.
-/
import AssetAudit.Proofs.Verdicts

namespace AssetAudit.Asset

variable {a b c : Asset}

/-! ### Files one by one -/

/-- The asset with a file behind those it has. -/
def withFile (a : Asset) (file : Text) : Asset :=
  a.append [file] []

theorem foldl_withFile (a : Asset) (more : List Text) :
    more.foldl withFile a = a.append more [] := by
  induction more generalizing a with
  | nil => simp [append]
  | cons file more ih => rw [List.foldl_cons, ih, withFile, append_append, List.singleton_append,
      List.append_nil]

/-! ### One image before and after -/

/-- The image had files and more have come: its mentions and its first file are the
same, no part is missing that was there, and no repeat is gone. -/
structure Grows (a b : Asset) : Prop where
  some : a.lacksFiles = false
  some' : b.lacksFiles = false
  references : b.references = a.references
  first : b.firstFile? = a.firstFile?
  parts : ∀ p, b.lacks p = true → a.lacks p = true
  repeats : a.hasDuplicates = true → b.hasDuplicates = true

namespace Grows

theorem refl (some : a.lacksFiles = false) : Grows a a :=
  ⟨some, some, rfl, rfl, fun _ h => h, fun h => h⟩

theorem trans (h : Grows a b) (h' : Grows b c) : Grows a c where
  some := h.some
  some' := h'.some'
  references := h'.references.trans h.references
  first := h'.first.trans h.first
  parts p lacks := h.parts p (h'.parts p lacks)
  repeats repeated := h'.repeats (h.repeats repeated)

end Grows

/-! ### Adding files -/

/-- Behind other files, a file is one more that has to pass a test. -/
theorem allFiles_withFile (some : a.lacksFiles = false) (file : Text) (test : Text → Bool) :
    (a.withFile file).allFiles test = (a.allFiles test && test file) := by
  have some' : (a.withFile file).lacksFiles = false := by simp [withFile, lacksFiles]
  rw [allFiles, allFiles, some, some', withFile, append_files, List.all_append, List.all_cons,
    List.all_nil, Bool.and_true, Bool.and_assoc]

/-- A repeat is not undone by what comes behind it. -/
theorem hasRepeat_append {α : Type} [DecidableEq α] {xs : List α} (h : hasRepeat xs = true)
    (ys : List α) : hasRepeat (xs ++ ys) = true := by
  rw [← Bool.not_eq_false, hasRepeat_eq_false_iff] at h ⊢
  intro distinct
  exact h (List.nodup_append.mp distinct).1

/-- **One more file** leaves a part missing at most where it was missing. -/
theorem grows_withFile (some : a.lacksFiles = false) (file : Text) :
    Grows a (a.withFile file) where
  some := some
  some' := by simp [withFile, lacksFiles]
  references := List.append_nil _
  first := by
    obtain ⟨f, files, e⟩ := List.exists_cons_of_ne_nil (List.isEmpty_eq_false_iff.mp some)
    rw [firstFile?, firstFile?, withFile, append_files, e]
    rfl
  parts := by
    intro p h
    have passed {test : Text → Bool} (all : (a.withFile file).allFiles test = true) :
        a.allFiles test = true := by
      rw [allFiles_withFile some, Bool.and_eq_true] at all
      exact all.1
    cases p with
    | references =>
      rw [lacks, withFile, append_references, List.append_nil] at h
      exact h
    | retina => exact passed h
    | standard => exact passed h
    | iphone => exact passed h
    | ipad => exact passed h
  repeats := by
    intro h
    rw [hasDuplicates, withFile, append_files, List.map_append]
    exact hasRepeat_append h _

/-- **Any number of files**, one after the other. -/
theorem grows_foldl_withFile (some : a.lacksFiles = false) (more : List Text) :
    Grows a (more.foldl withFile a) := by
  induction more generalizing a with
  | nil => exact .refl some
  | cons file more ih =>
    have step := grows_withFile some file
    exact step.trans (ih step.some')

/-! ### Findings before and after -/

theorem known_of_some (some : a.lacksFiles = false) : a.files ≠ [] ∨ a.references ≠ [] :=
  .inl (List.isEmpty_eq_false_iff.mp some)

/-- On an image with files, a finding of another kind than duplicates is that a
part is missing. -/
theorem mem_findings_of_some (some : a.lacksFiles = false) {f : Finding}
    (other : f.kind ≠ .duplicates) :
    f ∈ a.findings ↔ ∃ p, a.lacks p = true ∧ f = .missing p a.shownName := by
  rw [mem_findings_iff (known_of_some some)]
  constructor
  · rintro (⟨none, _⟩ | part | ⟨_, rfl⟩)
    · rw [some] at none
      cases none
    · exact part
    · exact absurd rfl other
  · intro part
    exact .inr (.inl part)

namespace Grows

theorem shownName (h : Grows a b) : b.shownName = a.shownName := by
  obtain ⟨f, files, e⟩ := List.exists_cons_of_ne_nil (List.isEmpty_eq_false_iff.mp h.some)
  rw [Asset.shownName, Asset.shownName, h.first, firstFile?, e]
  rfl

/-- What is found afterwards was found before, duplicates apart. -/
theorem mem_or_duplicates (h : Grows a b) {f : Finding} (mem : f ∈ b.findings) :
    f ∈ a.findings ∨ f.kind = .duplicates := by
  by_cases other : f.kind = .duplicates
  · exact .inr other
  · left
    obtain ⟨p, lacks, rfl⟩ := (mem_findings_of_some h.some' other).mp mem
    exact (mem_findings_of_some h.some other).mpr ⟨p, h.parts p lacks, h.shownName ▸ rfl⟩

/-- What is found before and afterwards is told in the same words. -/
theorem eq_of_kind (h : Grows a b) {f g : Finding} (before : f ∈ a.findings)
    (after : g ∈ b.findings) (same : f.kind = g.kind) (other : f.kind ≠ .duplicates) : f = g := by
  obtain ⟨p, _, rfl⟩ := (mem_findings_of_some h.some other).mp before
  obtain ⟨q, _, rfl⟩ := (mem_findings_of_some h.some' (same ▸ other)).mp after
  rw [FindingKind.missing.inj same, h.shownName]

end Grows

/-- **More files never make a variant missing.**  Of an image that has a file,
whatever files are added behind it, one after the other: no variant that was there
is missing afterwards, files that had one name still have it, the image still has
files, is mentioned as before, and is shown by the same file.  So the kinds of
findings are among those before, but for duplicates that may have come up, and any
other finding reads as it did. -/
theorem findings_of_more_files {a : Asset} (some : a.files ≠ []) (more : List Text) :
    let b := more.foldl withFile a
    b = a.append more [] ∧
    (∀ p, p ≠ .references → a.lacks p = false → b.lacks p = false) ∧
    (a.hasDuplicates = true → b.hasDuplicates = true) ∧
    b.lacksFiles = false ∧ b.lacks .references = a.lacks .references ∧
    b.firstFile? = a.firstFile? ∧ b.shownName = a.shownName ∧
    (∀ k ∈ b.kinds, k ∈ a.kinds ∨ k = .duplicates) ∧
    ∀ f ∈ a.findings, ∀ g ∈ b.findings, f.kind = g.kind → f.kind ≠ .duplicates → f = g := by
  intro b
  have h : Grows a b := grows_foldl_withFile (List.isEmpty_eq_false_iff.mpr some) more
  refine ⟨foldl_withFile a more, ?_, h.repeats, h.some', ?_, h.first, h.shownName, ?_, ?_⟩
  · intro p _ there
    rw [← Bool.not_eq_true] at there ⊢
    exact mt (h.parts p) there
  · rw [lacks, lacks, h.references]
  · intro k mem
    obtain ⟨f, found, rfl⟩ := List.mem_map.mp mem
    exact (h.mem_or_duplicates found).imp_left (List.mem_map_of_mem (f := Finding.kind))
  · intro f before g after same other
    exact h.eq_of_kind before after same other

/-- An image with one file, for the iPad alone.  A file of the same name in another
directory and a Retina file for both devices put everything right but the mentions,
and bring the duplicates. -/
theorem findings_of_more_tabs :
    let a : Asset := ⟨"tab".toList, ["a/tab~ipad.png".toList], []⟩
    let b := ["b/tab~ipad.png".toList, "tab@2x.png".toList].foldl withFile a
    a.files ≠ [] ∧
      a.kinds = [.missing .references, .missing .retina, .missing .iphone] ∧
      b.kinds = [.missing .references, .duplicates] ∧
      ∀ f ∈ a.findings, ∀ g ∈ b.findings, f.kind = g.kind → f.kind ≠ .duplicates → f = g := by
  intro a b
  have some : a.files ≠ [] := List.cons_ne_nil _ _
  obtain ⟨_, _, _, _, _, _, _, _, same⟩ :=
    findings_of_more_files some ["b/tab~ipad.png".toList, "tab@2x.png".toList]
  exact ⟨some, by decide, by decide, same⟩

end AssetAudit.Asset

/-
AssetAudit/Asset/Basic.lean

One image of a project: its files and the places that mention it.

An `Asset` gathers everything known under one bundle name.  Its files are
kept in the order in which they were found, repeats included, and so are the
sources that mention it.

The checks are stated one by one (`lacksFiles`, `lacks`, `hasDuplicates`).
A complete image has every `Part`; an image without any file lacks no
variant, since there is none to compare with.
-/
import AssetAudit.Name.Bundle
import AssetAudit.Name.Variant

namespace AssetAudit

/-- The files and mentions gathered under one bundle name. -/
structure Asset where
  /-- The name the image is looked up by. -/
  bundle : Text
  /-- The paths of the image's files, as text, in the order found. -/
  files : List Text := []
  /-- The paths of the sources that mention the image, one for each mention. -/
  references : List Bytes := []
  deriving DecidableEq, Repr

/-- What a complete image has besides a file. -/
inductive Part where
  /-- A mention in some source. -/
  | references
  /-- A file of the Retina resolution. -/
  | retina
  /-- A file of the standard resolution. -/
  | standard
  /-- A file that an iPhone can use. -/
  | iphone
  /-- A file that an iPad can use. -/
  | ipad
  deriving DecidableEq, Repr

namespace Asset

/-! ### Growth -/

/-- The asset with more files and references behind those it has. -/
def append (a : Asset) (files : List Text) (references : List Bytes) : Asset :=
  { a with files := a.files ++ files, references := a.references ++ references }

@[simp] theorem append_bundle (a : Asset) (fs : List Text) (rs : List Bytes) :
    (a.append fs rs).bundle = a.bundle := rfl

@[simp] theorem append_files (a : Asset) (fs : List Text) (rs : List Bytes) :
    (a.append fs rs).files = a.files ++ fs := rfl

@[simp] theorem append_references (a : Asset) (fs : List Text) (rs : List Bytes) :
    (a.append fs rs).references = a.references ++ rs := rfl

theorem append_append (a : Asset) (fs gs : List Text) (rs ss : List Bytes) :
    (a.append fs rs).append gs ss = a.append (fs ++ gs) (rs ++ ss) := by
  simp [append]

/-! ### Naming -/

/-- The file that stands for the image: the first one found. -/
def firstFile? (a : Asset) : Option Text :=
  a.files.head?

/-- What the image is called in a report: the file that stands for it, or its
bundle name if it has no file. -/
def shownName (a : Asset) : Text :=
  a.firstFile?.getD a.bundle

/-! ### Checks -/

/-- No file belongs to the image. -/
def lacksFiles (a : Asset) : Bool :=
  a.files.isEmpty

/-- The image has files, and all of them pass the test. -/
def allFiles (a : Asset) (test : Text → Bool) : Bool :=
  !a.lacksFiles && a.files.all test

/-- The image is without a part that it should have. -/
def lacks (a : Asset) : Part → Bool
  | .references => a.references.isEmpty
  | .retina => a.allFiles (!isRetina ·)
  | .standard => a.allFiles isRetina
  | .iphone => a.allFiles (isFor .ipad)
  | .ipad => a.allFiles (isFor .iphone)

/-- Some element of the list was met before, where so many have been met already.
The search ends with the first one. -/
def meetsAgain {α : Type} [DecidableEq α] (met : List α) : List α → Bool
  | [] => false
  | x :: xs => met.contains x || meetsAgain (x :: met) xs

/-- Some element of the list occurs again further on. -/
def hasRepeat {α : Type} [DecidableEq α] (xs : List α) : Bool :=
  meetsAgain [] xs

/-- Two files of the image have one file name, in whatever directories. -/
def hasDuplicates (a : Asset) : Bool :=
  hasRepeat (a.files.map Path.basename)

/-- No element is met again exactly if none repeats and none was met before. -/
theorem meetsAgain_eq_false_iff {α : Type} [DecidableEq α] {met xs : List α} :
    meetsAgain met xs = false ↔ xs.Nodup ∧ ∀ x ∈ xs, x ∉ met := by
  induction xs generalizing met with
  | nil => simp [meetsAgain]
  | cons x xs ih =>
    rw [meetsAgain, Bool.or_eq_false_iff, ih, List.nodup_cons, List.forall_mem_cons]
    constructor
    · rintro ⟨first, distinct, later⟩
      refine ⟨⟨fun again => later x again List.mem_cons_self, distinct⟩, by simpa using first, ?_⟩
      exact fun y hy old => later y hy (List.mem_cons_of_mem x old)
    · rintro ⟨⟨once, distinct⟩, first, later⟩
      refine ⟨by simpa using first, distinct, fun y hy => ?_⟩
      rw [List.mem_cons, not_or]
      exact ⟨fun e => once (e ▸ hy), later y hy⟩

theorem hasRepeat_eq_false_iff {α : Type} [DecidableEq α] {xs : List α} :
    hasRepeat xs = false ↔ xs.Nodup := by
  rw [hasRepeat, meetsAgain_eq_false_iff, and_iff_left fun _ _ => List.not_mem_nil]

end Asset

end AssetAudit

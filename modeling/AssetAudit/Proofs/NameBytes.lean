/-
AssetAudit/Proofs/NameBytes.lean

Names are chosen by their bytes.

The name of an entry is tested as it is shown, with replacement characters where
it is not UTF-8.  What the tests look for is ASCII, at the end of a name or at its
front, and a character of ASCII is shown exactly where its byte stands.  So the
tests decide on the bytes themselves:

* `isImageName_decodeLossy`, `SourceFormat.isOf_decodeLossy` — which list a file
  goes to;
* `Exclusion.isHidden_eq` — which entries are hidden.

No name goes to two lists (`Role.eq_of_isOf`): of two extensions of one name one
ends in the other, and no extension ends in one of another list.

Main result: `Walk.names_chosen_by_bytes`, for whole lists of files.
-/
import AssetAudit.Audit.Survey
import AssetAudit.Proofs.Decoding
import AssetAudit.Proofs.Patterns

namespace AssetAudit

/-- The name ends in the bytes of a text. -/
def endsInBytes (ext : Text) (name : Bytes) : Bool :=
  (Utf8.encode ext).isSuffixOf name

theorem endsInBytes_iff {ext : Text} {name : Bytes} :
    endsInBytes ext name = true ↔ Utf8.encode ext <:+ name :=
  List.isSuffixOf_iff_suffix

/-! ### Endings of names -/

theorem SourceFormat.extensions_ascii (f : SourceFormat) :
    ∀ ext ∈ f.extensions, ∀ c ∈ ext, c.toNat < 0x80 := by
  have each : f.extensions.all (·.all fun c => decide (c.toNat < 0x80)) = true := by
    cases f <;> decide
  intro ext mem
  exact low_of_all (List.all_eq_true.mp each ext mem)

/-- A name is shown with an ending of ASCII exactly if it has its bytes. -/
theorem isSuffixOf_decodeLossy {ext : Text} (ascii : ∀ c ∈ ext, c.toNat < 0x80) (name : Bytes) :
    ext.isSuffixOf (Utf8.decodeLossy name) = endsInBytes ext name := by
  rw [Bool.eq_iff_iff, List.isSuffixOf_iff_suffix, endsInBytes_iff]
  exact Utf8.suffix_decodeLossy_iff ascii

theorem isImageName_decodeLossy (name : Bytes) :
    isImageName (Utf8.decodeLossy name) = endsInBytes imageExtension name :=
  isSuffixOf_decodeLossy extension_ascii name

theorem SourceFormat.isOf_decodeLossy (f : SourceFormat) (name : Bytes) :
    f.isOf (Utf8.decodeLossy name) = f.extensions.any (endsInBytes · name) := by
  rw [isOf, Bool.eq_iff_iff, List.any_eq_true, List.any_eq_true]
  refine exists_congr fun ext => and_congr_right fun mem => ?_
  rw [isSuffixOf_decodeLossy (f.extensions_ascii ext mem)]

/-! ### Roles -/

/-- What a file is used as. -/
inductive Role where
  | image
  | source (format : SourceFormat)
  deriving DecidableEq

namespace Role

/-- The roles in the order in which a project is gone through for them. -/
def all : List Role :=
  .image :: SourceFormat.all.map .source

theorem mem_all (r : Role) : r ∈ all := by
  cases r with
  | image => exact List.mem_cons_self ..
  | source f => exact List.mem_cons_of_mem _ (List.mem_map_of_mem f.mem_all)

theorem nodup_all : all.Nodup := by
  decide

/-- The endings of the names of files in a role. -/
def extensions : Role → List Text
  | .image => [imageExtension]
  | .source f => f.extensions

/-- The test of a role on a name as it is shown. -/
def test : Role → Text → Bool
  | .image => isImageName
  | .source f => f.isOf

/-- A file of that name has the role. -/
def isOf (r : Role) (name : Bytes) : Bool :=
  r.extensions.any (endsInBytes · name)

theorem test_iff {r : Role} {name : Text} :
    r.test name = true ↔ ∃ ext ∈ r.extensions, ext <:+ name := by
  cases r with
  | image => simp [test, extensions, isImageName]
  | source f => simp [test, extensions, SourceFormat.isOf]

theorem isOf_iff {r : Role} {name : Bytes} :
    r.isOf name = true ↔ ∃ ext ∈ r.extensions, Utf8.encode ext <:+ name := by
  rw [isOf, List.any_eq_true]
  simp only [endsInBytes_iff]

theorem test_decodeLossy (r : Role) (name : Bytes) :
    r.test (Utf8.decodeLossy name) = r.isOf name := by
  cases r with
  | image => exact (isImageName_decodeLossy name).trans (Bool.or_false _).symm
  | source f => exact f.isOf_decodeLossy name

/-- No extension of one role ends in an extension of another. -/
theorem eq_of_suffix {r r' : Role} :
    ∀ e ∈ r.extensions, ∀ e' ∈ r'.extensions, e <:+ e' → r = r' := by
  have each : ∀ r ∈ all, ∀ r' ∈ all, ∀ e ∈ r.extensions, ∀ e' ∈ r'.extensions,
      e <:+ e' → r = r' := by
    decide
  exact each r r.mem_all r' r'.mem_all

/-- No name passes the tests of two roles. -/
theorem eq_of_test {r r' : Role} {name : Text} (h : r.test name = true)
    (h' : r'.test name = true) : r = r' := by
  obtain ⟨e, he, ends⟩ := test_iff.mp h
  obtain ⟨e', he', ends'⟩ := test_iff.mp h'
  rcases List.suffix_or_suffix_of_suffix ends ends' with sub | sub
  · exact eq_of_suffix e he e' he' sub
  · exact (eq_of_suffix e' he' e he sub).symm

/-- **No name has two roles.** -/
theorem eq_of_isOf {r r' : Role} {name : Bytes} (h : r.isOf name = true)
    (h' : r'.isOf name = true) : r = r' := by
  rw [← test_decodeLossy] at h h'
  exact eq_of_test h h'

end Role

/-- No name is of two formats. -/
theorem SourceFormat.eq_of_isOf {f g : SourceFormat} {name : Text} (hf : f.isOf name = true)
    (hg : g.isOf name = true) : f = g := by
  have same : Role.source f = .source g := Role.eq_of_test hf hg
  exact Role.source.inj same

/-! ### Hidden names -/

namespace Exclusion

theorem isHidden_eq (name : Bytes) : isHidden name = (name.head? == some 0x2E) := by
  rw [isHidden, Bool.eq_iff_iff, beq_iff_eq, beq_iff_eq]
  exact Utf8.head?_decodeLossy_iff (by decide)

/-- What leaves an entry out: its first byte, or a pattern. -/
theorem leavesOut_iff {x : Exclusion} {name path : Bytes} :
    x.leavesOut name path = true ↔
      (x.hidden = true ∧ name.head? = some 0x2E) ∨
      ∃ p ∈ x.patterns, Glob.fits p (Utf8.decodeLossy name) = true ∨ fitsPath p path = true := by
  simp only [leavesOut, isHidden_eq, Bool.or_eq_true, Bool.and_eq_true, beq_iff_eq,
    List.any_eq_true]

end Exclusion

/-! ### Lists of files -/

namespace Walk

/-- **Names are chosen by their bytes**, whether they are UTF-8 or not.  A name is
shown with the extension of images, or with one of a source format, exactly if it
ends in the bytes of the extension, and with a dot in front exactly if that is its
first byte.  So an entry is hidden by its first byte, and the lists of images and
of sources are what ends in the right bytes of what the walk finds.  Only a
pattern is matched against a name as it is shown. -/
theorem names_chosen_by_bytes :
    (∀ name : Bytes,
      (imageExtension <:+ Utf8.decodeLossy name ↔ Utf8.encode imageExtension <:+ name) ∧
      (∀ format : SourceFormat, ∀ ext ∈ format.extensions,
        (ext <:+ Utf8.decodeLossy name ↔ Utf8.encode ext <:+ name)) ∧
      ((Utf8.decodeLossy name).head? = some '.' ↔ name.head? = some 0x2E)) ∧
    (∀ (x : Exclusion) (name path : Bytes), x.leavesOut name path = true ↔
      (x.hidden = true ∧ name.head? = some 0x2E) ∨
      ∃ p ∈ x.patterns, Glob.fits p (Utf8.decodeLossy name) = true ∨
        Exclusion.fitsPath p path = true) ∧
    ∀ w : Walk,
      w.imageFiles = w.found.map (fun files =>
        (files.filter fun f => endsInBytes imageExtension f.name).map
          fun f => Path.seenFrom w.root f.path) ∧
      ∀ format : SourceFormat, w.sourceFiles format = w.found.map fun files =>
        (files.filter fun f => format.extensions.any (endsInBytes · f.name)).map Found.path := by
  refine ⟨?_, fun x name path => Exclusion.leavesOut_iff, ?_⟩
  · intro name
    refine ⟨Utf8.suffix_decodeLossy_iff extension_ascii, ?_,
      Utf8.head?_decodeLossy_iff (by decide)⟩
    intro format ext mem
    exact Utf8.suffix_decodeLossy_iff (format.extensions_ascii ext mem)
  · intro w
    constructor
    · rw [imageFiles, select]
      simp only [isImageName_decodeLossy]
      cases w.found <;> rfl
    · intro format
      rw [sourceFiles, select]
      simp only [format.isOf_decodeLossy]
      cases w.found <;> rfl

end Walk

/-- A project with names that are not UTF-8: cut off inside a character in front
of an extension, and with a dot spelled too long in front of another. -/
def tornNames : Walk where
  fs := {
    top := [.directory (Utf8.encode "p".toList) [
      .file ([0x63, 0xE2, 0x82] ++ Utf8.encode ".mm".toList) [],
      .file ([0xC0, 0xAE] ++ Utf8.encode "a.png".toList) [],
      .file ([0x2E, 0xFF] ++ Utf8.encode "b.png".toList) []]]
    workingDirectory := [Utf8.encode "p".toList] }
  exclusion := .standard
  root := Utf8.encode ".".toList

/-- The name that is cut off is that of a source, and of the other two only the
one that begins with a dot itself is hidden. -/
theorem names_chosen_of_tornNames :
    let torn := [0x63, 0xE2, 0x82] ++ Utf8.encode ".mm".toList
    ".mm".toList ∈ SourceFormat.objectiveC.extensions ∧
      ".mm".toList <:+ Utf8.decodeLossy torn ∧
      tornNames.sourceFiles .objectiveC = .ok [Utf8.encode "./".toList ++ torn] ∧
      tornNames.imageFiles = .ok [[0xC0, 0xAE] ++ Utf8.encode "a.png".toList] := by
  intro torn
  obtain ⟨names, _, lists⟩ := Walk.names_chosen_by_bytes
  obtain ⟨_, endings, _⟩ := names torn
  obtain ⟨images, sources⟩ := lists tornNames
  have mem : ".mm".toList ∈ SourceFormat.objectiveC.extensions := by decide
  have torn_mm : Utf8.encode ".mm".toList <:+ torn := List.suffix_append _ _
  exact ⟨mem, (endings .objectiveC _ mem).mpr torn_mm, (sources .objectiveC).trans rfl,
    images.trans rfl⟩

end AssetAudit

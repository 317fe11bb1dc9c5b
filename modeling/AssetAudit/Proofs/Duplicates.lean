/-
AssetAudit/Proofs/Duplicates.lean

Duplicates across a whole project.

Duplicates are looked for among the files of one image only.  Nothing is missed
by that, since the bundle name of a path depends on the name that the path ends
in alone: files of one name are files of one image, in whatever directories
they are (`Survey.hasDuplicates_iff`).  And as a path has one bundle name, the
finding that lists it is that of this bundle (`Survey.filter_lists`).

The files are compared as they are shown.  Where the names of the files are UTF-8
that is the same as comparing the names themselves.  Where those of the
directories are so as well, the files that a finding lists can be read off from
what is shown (`Walk.encode_decodeLossy_of_images`).

Main result: `Walk.duplicates_across_project`.
-/
import AssetAudit.Proofs.Conservation
import AssetAudit.Proofs.Lines
import AssetAudit.Proofs.Recording
import Mathlib.Data.List.Nodup

namespace AssetAudit

/-! ### Repeats -/

/-- Values of different elements repeat exactly if two of the elements have the
same value. -/
theorem Asset.hasRepeat_map_iff {α β : Type} [DecidableEq β] {xs : List α} {f : α → β}
    (distinct : xs.Nodup) :
    hasRepeat (xs.map f) = true ↔ ∃ x ∈ xs, ∃ y ∈ xs, x ≠ y ∧ f x = f y := by
  rw [← Bool.not_eq_false, hasRepeat_eq_false_iff, List.nodup_map_iff_inj_on distinct]
  simp only [not_forall, exists_prop]
  constructor
  · rintro ⟨x, hx, y, hy, same, other⟩
    exact ⟨x, hx, y, hy, other, same⟩
  · rintro ⟨x, hx, y, hy, other, same⟩
    exact ⟨x, hx, y, hy, same, other⟩

namespace Survey

variable {s : Survey} {b : Text}

/-- The image files that come to a bundle name. -/
def imagesOf (s : Survey) (b : Text) : List Bytes :=
  s.images.filter fun p => bundleName (Utf8.decodeLossy p) = b

theorem filesOf_eq_map (s : Survey) (b : Text) :
    s.filesOf b = (s.imagesOf b).map Utf8.decodeLossy :=
  List.filter_map

theorem mem_imagesOf {p : Bytes} :
    p ∈ s.imagesOf b ↔ p ∈ s.images ∧ bundleName (Utf8.decodeLossy p) = b := by
  rw [imagesOf, List.mem_filter, decide_eq_true_iff]

theorem bundleName_of_mem_filesOf {t : Text} (h : t ∈ s.filesOf b) : bundleName t = b :=
  of_decide_eq_true (List.mem_filter.mp h).2

/-- An image has duplicates exactly if two of its files are shown with one
name. -/
theorem hasDuplicates_iff (distinct : s.images.Nodup) (b : Text) :
    (s.assetOf b).hasDuplicates = true ↔
      ∃ p ∈ s.imagesOf b, ∃ q ∈ s.imagesOf b, p ≠ q ∧
        Path.basename (Utf8.decodeLossy p) = Path.basename (Utf8.decodeLossy q) := by
  have names : (s.assetOf b).files.map Path.basename =
      (s.imagesOf b).map fun p => Path.basename (Utf8.decodeLossy p) := by
    show (s.filesOf b).map _ = _
    rw [filesOf_eq_map, List.map_map]
    rfl
  rw [Asset.hasDuplicates, names]
  exact Asset.hasRepeat_map_iff (distinct.filter _)

theorem mem_duplicates_iff {files : List Text} :
    .duplicates files ∈ s.catalogue.findings ↔
      ∃ b, (s.assetOf b).hasDuplicates = true ∧ files = s.filesOf b := by
  rw [mem_findings_iff]
  constructor
  · rintro ⟨b, known, mem⟩
    rcases (Asset.mem_findings_iff (known_of_mem_names known)).mp mem with
      ⟨_, ⟨⟩⟩ | ⟨_, _, ⟨⟩⟩ | ⟨repeated, ⟨⟩⟩
    exact ⟨b, repeated, rfl⟩
  · rintro ⟨b, repeated, rfl⟩
    -- without files there would be no repeat
    have known : b ∈ s.names := by
      refine mem_names.mpr (.inl ?_)
      intro none
      rw [Asset.hasDuplicates, assetOf, none] at repeated
      cases repeated
    exact ⟨b, known,
      (Asset.mem_findings_iff (known_of_mem_names known)).mpr (.inr (.inr ⟨repeated, rfl⟩))⟩

end Survey

/-! ### Findings that list a file -/

/-- The finding is that files have one name, and all of the texts are among
them. -/
def Finding.lists (ts : List Text) : Finding → Bool
  | .duplicates files => ts.all files.contains
  | _ => false

theorem Asset.filter_lists {a : Asset} (known : a.files ≠ [] ∨ a.references ≠ [])
    (ts : List Text) :
    a.findings.filter (·.lists ts) =
      if a.hasDuplicates && ts.all a.files.contains then [.duplicates a.files] else [] := by
  rw [findings_eq_of_known known]
  simp only [List.filter_append, toList_missing?, toList_missingFiles?, toList_duplicates?,
    filter_ite_singleton, Finding.lists, Bool.and_false]
  simp

/-- A file can be listed with the other files of its bundle only. -/
theorem Survey.filter_lists (s : Survey) (t : Text) (ts : List Text) :
    s.catalogue.findings.filter (·.lists (t :: ts)) =
      if (s.assetOf (bundleName t)).hasDuplicates &&
          (t :: ts).all (s.filesOf (bundleName t)).contains
        then [.duplicates (s.filesOf (bundleName t))] else [] := by
  rw [filter_findings (b := bundleName t)]
  · by_cases known : bundleName t ∈ s.names
    · rw [if_pos known, Asset.filter_lists (known_of_mem_names known)]
      rfl
    · have none : s.filesOf (bundleName t) = [] :=
        Classical.not_not.mp fun files => known (mem_names.mpr (.inl files))
      rw [if_neg known, none, List.all_cons, List.contains_nil, Bool.false_and, Bool.and_false]
      rfl
  · intro n known other
    have elsewhere : (s.filesOf n).contains t = false := by
      rw [List.contains_eq_mem, decide_eq_false_iff_not]
      exact fun mem => other (bundleName_of_mem_filesOf mem).symm
    rw [Asset.filter_lists (known_of_mem_names known), List.all_cons]
    show (if _ && ((s.filesOf n).contains t && _) then _ else _) = _
    rw [elsewhere, Bool.false_and, Bool.and_false]
    rfl

theorem Survey.length_filter_lists_le (s : Survey) (t : Text) (ts : List Text) :
    (s.catalogue.findings.filter (·.lists (t :: ts))).length ≤ 1 := by
  rw [filter_lists]
  split
  · exact Nat.le_refl 1
  · exact Nat.zero_le 1

/-- Files that are shown with one name are listed together, once. -/
theorem Survey.filter_lists_of_basename_eq {s : Survey} {p q : Bytes} (distinct : s.images.Nodup)
    (hp : p ∈ s.images) (hq : q ∈ s.images) (other : p ≠ q)
    (same : Path.basename (Utf8.decodeLossy p) = Path.basename (Utf8.decodeLossy q)) :
    s.catalogue.findings.filter (·.lists [Utf8.decodeLossy p, Utf8.decodeLossy q]) =
      [.duplicates (s.filesOf (bundleName (Utf8.decodeLossy p)))] := by
  have bundle : bundleName (Utf8.decodeLossy q) = bundleName (Utf8.decodeLossy p) := by
    rw [bundleName, bundleName, same]
  have inP : p ∈ s.imagesOf (bundleName (Utf8.decodeLossy p)) := mem_imagesOf.mpr ⟨hp, rfl⟩
  have inQ : q ∈ s.imagesOf (bundleName (Utf8.decodeLossy p)) := mem_imagesOf.mpr ⟨hq, bundle⟩
  have repeated := (hasDuplicates_iff distinct _).mpr ⟨p, inP, q, inQ, other, same⟩
  have listed : [Utf8.decodeLossy p, Utf8.decodeLossy q].all
      (s.filesOf (bundleName (Utf8.decodeLossy p))).contains = true := by
    rw [filesOf_eq_map]
    simp only [List.all_cons, List.all_nil, Bool.and_true, Bool.and_eq_true, List.contains_iff_mem]
    exact ⟨List.mem_map_of_mem inP, List.mem_map_of_mem inQ⟩
  rw [filter_lists, repeated, listed]
  rfl

/-! ### Names that are UTF-8 -/

/-- All names below a listing are UTF-8. -/
def NamesUtf8 (listing : List Entry) : Prop :=
  ∀ l k, kindBelow? listing l = some k → ∀ n ∈ l, (Utf8.decode? n).isSome = true

/-- The names of the files and links below a listing are UTF-8, whatever those of
the directories are. -/
def FileNamesUtf8 (listing : List Entry) : Prop :=
  ∀ above n k, kindBelow? listing (above ++ [n]) = some k → k ≠ .directory →
    (Utf8.decode? n).isSome = true

theorem NamesUtf8.fileNames {listing : List Entry} (h : NamesUtf8 listing) :
    FileNamesUtf8 listing :=
  fun above n k there _ => h _ k there n (List.mem_append_right above (List.mem_singleton_self n))

theorem NamesUtf8.of_census {listing : List Entry}
    (h : ∀ place ∈ census listing, ∀ n ∈ place.1, (Utf8.decode? n).isSome = true) :
    NamesUtf8 listing :=
  fun _ _ there => h _ (mem_census_of_kindBelow? there)

/-- Names that can be read off from what is shown make up such a path. -/
theorem encode_decodeLossy_intercalate {l : Location}
    (h : ∀ n ∈ l, Utf8.encode (Utf8.decodeLossy n) = n) :
    Utf8.encode (Utf8.decodeLossy ([0x2F].intercalate l)) = [0x2F].intercalate l := by
  induction l with
  | nil => rfl
  | cons n l ih =>
    obtain ⟨hn, hl⟩ := List.forall_mem_cons.mp h
    cases l with
    | nil => rw [List.intercalate_singleton, hn]
    | cons m l =>
      rw [List.intercalate_cons_cons, List.append_assoc, List.singleton_append,
        Utf8.decodeLossy_append_ascii (by decide), Utf8.encode_append, Utf8.encode_cons, hn, ih hl]
      rfl

namespace Walk

variable {w : Walk} {here : Location} {listing : List Entry} {images : List Bytes}

/-- The image files are all different. -/
theorem nodup_imageFiles (tree : IsTree w.fs.top) (h : w.imageFiles = .ok images) :
    images.Nodup :=
  (imageFiles_ascending tree h).nodup

/-- Where names are UTF-8 an image file can be read off from what is shown. -/
theorem encode_decodeLossy_of_images (tree : IsTree w.fs.top)
    (root : w.fs.lookup .follow w.root = .ok (.directory here listing))
    (utf8 : NamesUtf8 listing) (h : w.imageFiles = .ok images) :
    ∀ p ∈ images, Utf8.encode (Utf8.decodeLossy p) = p := by
  intro p mem
  obtain ⟨above, n, _, _, record⟩ := exists_record_of_imageFiles tree root h mem
  obtain ⟨k, there⟩ := exists_kind_of_finds record.found
  rw [record.seen]
  exact encode_decodeLossy_intercalate fun n hn => Utf8.isSome_decode?_iff.mp (utf8 _ k there n hn)

/-! ### Duplicates of a project -/

/-- **Duplicates are found across the whole project**, where the names of its
files are UTF-8.  Any two image files of one name are listed together by exactly
one finding.  A finding of duplicates lists all image files of one bundle name,
in the order of the walk, and two of them have one name.  And no file is listed
by two such findings.  If the names of directories are UTF-8 as well, what is
listed for a file tells its path. -/
theorem duplicates_across_project {r : Report} (tree : IsTree w.fs.top)
    (root : w.fs.lookup .follow w.root = .ok (.directory here listing))
    (utf8 : FileNamesUtf8 listing) (h : w.audit = .ok r) :
    ∃ c : w.Collection,
      (NamesUtf8 listing → ∀ p ∈ c.images, Utf8.encode (Utf8.decodeLossy p) = p) ∧
      (∀ p ∈ c.images, ∀ q ∈ c.images, p ≠ q → Path.fileName? p = Path.fileName? q →
        (r.findings.filter (·.lists [Utf8.decodeLossy p, Utf8.decodeLossy q])).length = 1) ∧
      (∀ files, .duplicates files ∈ r.findings → ∃ b,
        files = (c.images.filter fun p => bundleName (Utf8.decodeLossy p) = b).map
          Utf8.decodeLossy ∧
        ∃ p ∈ c.images, ∃ q ∈ c.images, p ≠ q ∧ Path.fileName? p = Path.fileName? q ∧
          bundleName (Utf8.decodeLossy p) = b ∧ bundleName (Utf8.decodeLossy q) = b) ∧
      ∀ p ∈ c.images, (r.findings.filter (·.lists [Utf8.decodeLossy p])).length ≤ 1 := by
  obtain ⟨c, rfl⟩ := audit_eq_ok_iff.mp h
  rw [c.toSurvey.findings_report]
  have distinct : c.toSurvey.images.Nodup := nodup_imageFiles tree c.images_found
  have record {p : Bytes} (mem : p ∈ c.images) :=
    exists_record_of_imageFiles tree root c.images_found mem
  -- names that look alike are the same, as they are UTF-8
  have whole {above : Location} {n : Bytes} (finds : w.Finds w.root listing (above ++ [n])) :
      Utf8.encode (Utf8.decodeLossy n) = n := by
    obtain ⟨_, k, there, file⟩ := finds
    have leaf : k ≠ .directory := by
      rintro rfl
      cases file
    exact Utf8.isSome_decode?_iff.mp (utf8 above n k there leaf)
  refine ⟨c, fun names => encode_decodeLossy_of_images tree root names c.images_found, ?_, ?_,
    fun p _ => Survey.length_filter_lists_le _ _ _⟩
  · intro p hp q hq other same
    obtain ⟨_, n, _, _, record⟩ := record hp
    have shown : Path.basename (Utf8.decodeLossy p) = Path.basename (Utf8.decodeLossy q) := by
      rw [Path.basename_decodeLossy record.named, Path.basename_decodeLossy (same ▸ record.named)]
    rw [Survey.filter_lists_of_basename_eq distinct hp hq other shown]
    rfl
  · intro files mem
    obtain ⟨b, repeated, rfl⟩ := Survey.mem_duplicates_iff.mp mem
    obtain ⟨p, inP, q, inQ, other, same⟩ := (Survey.hasDuplicates_iff distinct b).mp repeated
    obtain ⟨hp, bundleP⟩ := Survey.mem_imagesOf.mp inP
    obtain ⟨hq, bundleQ⟩ := Survey.mem_imagesOf.mp inQ
    refine ⟨b, Survey.filesOf_eq_map _ b, p, hp, q, hq, other, ?_, bundleP, bundleQ⟩
    obtain ⟨_, n, _, _, recordP⟩ := record hp
    obtain ⟨_, m, _, _, recordQ⟩ := record hq
    rw [Path.basename_decodeLossy recordP.named, Path.basename_decodeLossy recordQ.named] at same
    rw [recordP.named, recordQ.named, ← whole recordP.found, same, whole recordQ.found]

end Walk

/-- A project with an image that has two files of one name, in two
directories. -/
def twinProject : Walk where
  fs := {
    top := [.directory (Utf8.encode "p".toList) [
      .directory (Utf8.encode "b".toList) [.file (Utf8.encode "é.png".toList) []],
      .directory (Utf8.encode "a".toList) [.file (Utf8.encode "é.png".toList) []]]]
    workingDirectory := [Utf8.encode "p".toList] }
  exclusion := .standard
  root := Utf8.encode ".".toList

set_option maxRecDepth 1000 in
theorem duplicates_across_twinProject :
    let a := "a/é.png".toList
    let b := "b/é.png".toList
    let r : Report := ⟨[.missing .references a, .missing .retina a, .duplicates [a, b]],
      ⟨2, 0, 0, 1, 3⟩⟩
    IsTree twinProject.fs.top ∧ (∃ listing,
      twinProject.fs.lookup .follow twinProject.root =
        .ok (.directory [Utf8.encode "p".toList] listing) ∧ FileNamesUtf8 listing) ∧
      twinProject.audit = .ok r ∧
      Path.fileName? (Utf8.encode a) = Path.fileName? (Utf8.encode b) ∧
      (r.findings.filter (·.lists [a, b])).length = 1 := by
  intro a b r
  have tree : IsTree twinProject.fs.top := by decide
  obtain ⟨listing, root, utf8⟩ : ∃ listing,
      twinProject.fs.lookup .follow twinProject.root =
        .ok (.directory [Utf8.encode "p".toList] listing) ∧ FileNamesUtf8 listing :=
    ⟨_, rfl, (NamesUtf8.of_census (by decide)).fileNames⟩
  have audit : twinProject.audit = .ok r := by rfl
  obtain ⟨c, _, together, _⟩ := Walk.duplicates_across_project tree root utf8 audit
  have found : twinProject.imageFiles = .ok ([a, b].map Utf8.encode) := by rfl
  have images := Except.ok.inj (c.images_found.symm.trans found)
  have mem {t : Text} (h : t ∈ [a, b]) : Utf8.encode t ∈ c.images :=
    images ▸ List.mem_map_of_mem h
  have name : Path.fileName? (Utf8.encode a) = Path.fileName? (Utf8.encode b) := by decide
  have once := together _ (mem (t := a) (by decide)) _ (mem (t := b) (by decide)) (by decide) name
  rw [Utf8.decodeLossy_encode, Utf8.decodeLossy_encode] at once
  exact ⟨tree, ⟨listing, root, utf8⟩, audit, name, once⟩

end AssetAudit

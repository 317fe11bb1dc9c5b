/-
AssetAudit/Proofs/Likeness.lean

Image files that look alike.

A catalogue holds image files as they are shown, and a name that is not UTF-8 is
shown with U+FFFD for what it spells no character with.  So different files can
come to look alike: they do exactly if their names do, level by level
(`Path.decodeLossy_eq_iff`), and then some of the names are not UTF-8
(`Path.exists_not_utf8_of_alike`).

Main result: `Walk.files_look_alike_iff` tells when a catalogue holds one text
for two files, and when two names are taken for one.
-/
import AssetAudit.Proofs.Duplicates

namespace AssetAudit

namespace Path

/-! ### Paths by their segments -/

/-- A path is told by its segments. -/
theorem eq_of_segments_eq {α : Type} [CodeUnit α] [DecidableEq α] {p q : List α} (slash : α)
    (h : CodeUnit.is slash '/' = true) (same : segments p = segments q) : p = q := by
  have test : (fun u : α => CodeUnit.is u '/') = (· == slash) := by
    funext u
    rw [Bool.eq_iff_iff, beq_iff_eq]
    exact ⟨fun hu => CodeUnit.eq_of_is hu h, fun e => e ▸ h⟩
  have whole (p : List α) : [slash].intercalate (segments p) = p := by
    rw [segments, test, ← List.splitOn_eq_splitOnP]
    exact List.intercalate_splitOn slash
  rw [← whole p, same, whole q]

variable {p q : Bytes}

/-- The two paths are shown with the same names, level by level. -/
def LookAlike (p q : Bytes) : Prop :=
  (segments p).map Utf8.decodeLossy = (segments q).map Utf8.decodeLossy

instance (p q : Bytes) : Decidable (LookAlike p q) :=
  inferInstanceAs (Decidable (_ = _))

/-- Paths are shown as one text exactly if their names look alike. -/
theorem decodeLossy_eq_iff : Utf8.decodeLossy p = Utf8.decodeLossy q ↔ LookAlike p q := by
  rw [LookAlike, ← segments_decodeLossy, ← segments_decodeLossy]
  exact ⟨congrArg segments, eq_of_segments_eq '/' rfl⟩

/-- Of different paths that look alike, some name is not UTF-8. -/
theorem exists_not_utf8_of_alike (other : p ≠ q) (alike : LookAlike p q) :
    ∃ n ∈ segments p ++ segments q, Utf8.decode? n = none := by
  apply Classical.byContradiction
  intro none
  -- otherwise the names could be read off from what is shown
  have whole : ∀ n ∈ segments p ++ segments q, Utf8.encode (Utf8.decodeLossy n) = n := by
    intro n hn
    rw [← Utf8.isSome_decode?_iff, Option.isSome_iff_ne_none]
    exact fun e => none ⟨n, hn, e⟩
  have read {segs : List Bytes} (h : ∀ n ∈ segs, Utf8.encode (Utf8.decodeLossy n) = n) :
      (segs.map Utf8.decodeLossy).map Utf8.encode = segs := by
    rw [List.map_map]
    exact (List.map_congr_left h).trans (List.map_id segs)
  obtain ⟨ofP, ofQ⟩ := List.forall_mem_append.mp whole
  apply other
  apply eq_of_segments_eq 0x2F rfl
  rw [← read ofP, ← read ofQ]
  exact congrArg (List.map Utf8.encode) alike

/-- Of different names that are shown as one, one is not UTF-8. -/
theorem decode?_eq_none_or_of_alike {m n : Bytes} (other : m ≠ n)
    (alike : Utf8.decodeLossy m = Utf8.decodeLossy n) :
    Utf8.decode? m = none ∨ Utf8.decode? n = none := by
  rw [← Option.not_isSome_iff_eq_none, ← Option.not_isSome_iff_eq_none, ← not_and_or,
    Utf8.isSome_decode?_iff, Utf8.isSome_decode?_iff]
  rintro ⟨ofM, ofN⟩
  exact other (by rw [← ofM, alike, ofN])

end Path

/-- The assets hold different texts exactly if no two image files are shown as
one. -/
theorem Survey.nodup_files_iff {s : Survey} (distinct : s.images.Nodup) :
    (∀ a ∈ s.catalogue.assets, a.files.Nodup) ↔
      ∀ p ∈ s.images, ∀ q ∈ s.images, Utf8.decodeLossy p = Utf8.decodeLossy q → p = q := by
  have each (b : Text) : (s.assetOf b).files.Nodup ↔ ∀ p ∈ s.imagesOf b, ∀ q ∈ s.imagesOf b,
      Utf8.decodeLossy p = Utf8.decodeLossy q → p = q := by
    show (s.filesOf b).Nodup ↔ _
    rw [filesOf_eq_map]
    exact List.nodup_map_iff_inj_on (distinct.filter _)
  rw [assets_catalogue, List.forall_mem_map]
  simp only [List.mem_eraseDups, each]
  constructor
  · intro h p hp q hq alike
    -- files that are shown as one have one bundle name
    have inP : p ∈ s.imagesOf (bundleName (Utf8.decodeLossy p)) := mem_imagesOf.mpr ⟨hp, rfl⟩
    have inQ : q ∈ s.imagesOf (bundleName (Utf8.decodeLossy p)) :=
      mem_imagesOf.mpr ⟨hq, by rw [alike]⟩
    have known : bundleName (Utf8.decodeLossy p) ∈ s.names := by
      refine mem_names.mpr (.inl ?_)
      rw [filesOf_eq_map]
      exact List.ne_nil_of_mem (List.mem_map_of_mem inP)
    exact h _ known p inP q inQ alike
  · intro h b _ p inP q inQ
    exact h p (mem_imagesOf.mp inP).1 q (mem_imagesOf.mp inQ).1

/-- **Different image files stay different in a catalogue, unless they look
alike.**  Two files below a directory are held as one text exactly if their
names are shown as the same, level by level, and where the files differ some of
these names are not UTF-8.  So no text is held twice exactly if no two image
files look alike.  Their names are taken for one exactly if they are shown as
one, and of different names that are, one is not UTF-8. -/
theorem Walk.files_look_alike_iff {w : Walk} {here : Location} {listing : List Entry} {s : Survey}
    (tree : IsTree w.fs.top)
    (root : w.fs.lookup .follow w.root = .ok (.directory here listing)) (h : w.survey = .ok s) :
    ∃ c : w.Collection, s = c.toSurvey ∧ c.images.Nodup ∧
      (∀ p ∈ c.images, ∀ q ∈ c.images,
        (Utf8.decodeLossy p = Utf8.decodeLossy q ↔ Path.LookAlike p q) ∧
        (p ≠ q → Path.LookAlike p q →
          ∃ n ∈ Path.segments p ++ Path.segments q, Utf8.decode? n = none)) ∧
      ((∀ a ∈ s.catalogue.assets, a.files.Nodup) ↔
        ∀ p ∈ c.images, ∀ q ∈ c.images, Path.LookAlike p q → p = q) ∧
      ∀ p ∈ c.images, ∀ q ∈ c.images, ∃ m n,
        Path.fileName? p = some m ∧ Path.fileName? q = some n ∧
        (Path.basename (Utf8.decodeLossy p) = Path.basename (Utf8.decodeLossy q) ↔
          Utf8.decodeLossy m = Utf8.decodeLossy n) ∧
        (m ≠ n → Utf8.decodeLossy m = Utf8.decodeLossy n →
          Utf8.decode? m = none ∨ Utf8.decode? n = none) := by
  obtain ⟨c, rfl⟩ := survey_eq_ok_iff.mp h
  have distinct : c.toSurvey.images.Nodup := nodup_imageFiles tree c.images_found
  refine ⟨c, rfl, distinct, ?_, ?_, ?_⟩
  · intro p _ q _
    exact ⟨Path.decodeLossy_eq_iff, Path.exists_not_utf8_of_alike⟩
  · rw [Survey.nodup_files_iff distinct]
    simp only [Path.decodeLossy_eq_iff]
    rfl
  · intro p hp q hq
    obtain ⟨_, m, _, _, recordP⟩ := exists_record_of_imageFiles tree root c.images_found hp
    obtain ⟨_, n, _, _, recordQ⟩ := exists_record_of_imageFiles tree root c.images_found hq
    refine ⟨m, n, recordP.named, recordQ.named, ?_, Path.decode?_eq_none_or_of_alike⟩
    rw [Path.basename_decodeLossy recordP.named, Path.basename_decodeLossy recordQ.named]

/-- The files of the project with two files of one name stay different. -/
theorem files_of_twinProject_stay_different :
    IsTree twinProject.fs.top ∧ (∃ listing, twinProject.fs.lookup .follow twinProject.root =
        .ok (.directory [Utf8.encode "p".toList] listing)) ∧
      ∃ s, twinProject.survey = .ok s ∧ s.images.length = 2 ∧
        ∀ a ∈ s.catalogue.assets, a.files.Nodup := by
  have tree : IsTree twinProject.fs.top := by decide
  obtain ⟨listing, root⟩ : ∃ listing, twinProject.fs.lookup .follow twinProject.root =
      .ok (.directory [Utf8.encode "p".toList] listing) := ⟨_, rfl⟩
  let images := ["a/é.png".toList, "b/é.png".toList].map Utf8.encode
  have surveyed : twinProject.survey = .ok ⟨images, [], []⟩ := by rfl
  obtain ⟨c, e, _, _, different, _⟩ := Walk.files_look_alike_iff tree root surveyed
  have found : c.images = images := (congrArg Survey.images e).symm
  refine ⟨tree, ⟨listing, root⟩, _, surveyed, rfl, different.mpr ?_⟩
  rw [found]
  decide

/-- A project with two images whose names are single bytes that begin no
character. -/
def strayProject : Walk where
  fs := {
    top := [.directory (Utf8.encode "p".toList) [
      .file (0xFE :: Utf8.encode ".png".toList) [],
      .file (0xFF :: Utf8.encode ".png".toList) []]]
    workingDirectory := [Utf8.encode "p".toList] }
  exclusion := .standard
  root := Utf8.encode ".".toList

/-- Its two images are held as one text, twice, and reported as files of one
name. -/
theorem files_of_strayProject_look_alike :
    let first : Bytes := 0xFE :: Utf8.encode ".png".toList
    let second : Bytes := 0xFF :: Utf8.encode ".png".toList
    let shown : Text := "\uFFFD.png".toList
    IsTree strayProject.fs.top ∧ strayProject.imageFiles = .ok [first, second] ∧
      first ≠ second ∧ Utf8.decodeLossy first = shown ∧ Utf8.decodeLossy second = shown ∧
      Path.fileName? first ≠ Path.fileName? second ∧
      ∃ s, strayProject.survey = .ok s ∧ (∃ a ∈ s.catalogue.assets, a.files = [shown, shown]) ∧
        .duplicates [shown, shown] ∈ s.catalogue.findings := by
  intro first second shown
  have surveyed : strayProject.survey = .ok ⟨[first, second], [], []⟩ := by rfl
  exact ⟨by decide, by rfl, by decide, by decide, by decide, by decide, _, surveyed,
    ⟨⟨"\uFFFD".toList, [shown, shown], []⟩, by decide, rfl⟩, by decide⟩

end AssetAudit

/-
AssetAudit/Proofs/Locality.lean

What a new source changes in an audit.

A file that is left out, or is neither a source nor an image, changes nothing.
A source can only add mentions (`Walk.Addition.survey_insert`).  So what is known
under a name that it does not mention stays the same, and under a name that it
does mention there are more references and the same files
(`Survey.get?_of_unmentioned`, `Survey.references_insert`).  A name with files
has one finding less, if its mentions were missing
(`Asset.findings_of_references`); a name without files has the one finding that
they are missing.

A new source can do more than that only by being out of reach: where the path of
the root is so long that the system refuses that of the source, the audit fails.

Main result: `Walk.audit_of_added_file`.
-/
import AssetAudit.Proofs.Arrangement
import AssetAudit.Proofs.Insertion

namespace AssetAudit

/-! ### Findings -/

/-- The finding is that an image is mentioned nowhere. -/
def Finding.isMissingReferences : Finding → Bool
  | .missing .references _ => true
  | _ => false

/-- With a reference an image with files makes the findings it makes without
any, but for the one that references are missing. -/
theorem Asset.findings_of_references {bundle : Text} {files : List Text} {rs rs' : List Bytes}
    (filed : files ≠ []) (mentioned : rs' ≠ []) :
    (⟨bundle, files, rs'⟩ : Asset).findings =
      (⟨bundle, files, rs⟩ : Asset).findings.filter (!·.isMissingReferences) := by
  have lacks : (⟨bundle, files, rs'⟩ : Asset).lacks .references = false :=
    List.isEmpty_eq_false_iff.mpr mentioned
  have has (rs : List Bytes) : (⟨bundle, files, rs⟩ : Asset).lacksFiles = false :=
    List.isEmpty_eq_false_iff.mpr filed
  rw [findings_eq_of_known (.inl filed), findings_eq_of_known (.inl filed)]
  simp only [List.filter_append, toList_missing?, toList_missingFiles?, toList_duplicates?,
    filter_ite_singleton, Finding.isMissingReferences, lacks, has, Bool.not_false, Bool.not_true,
    Bool.and_true, Bool.and_false]
  -- all other checks look at the files alone
  rfl

/-! ### Records -/

/-- What a catalogue knows under a bundle name: nothing, if the name was not
met. -/
def Catalogue.recordOf (c : Catalogue) (b : Text) : Asset :=
  (c.get? b).getD ⟨b, [], []⟩

namespace Survey

variable {s s' : Survey} {b : Text}

theorem get?_catalogue (s : Survey) (b : Text) :
    s.catalogue.get? b =
      if s.filesOf b ≠ [] ∨ s.mentionsOf b ≠ [] then some (s.assetOf b) else none := by
  rw [catalogue_eq_ofSightings, Catalogue.ofSightings_eq_ofParts, Catalogue.get?_ofParts,
    map_bundle_sightings, mergedUnder_sightings]
  simp only [mem_names]

theorem recordOf_catalogue (s : Survey) (b : Text) : s.catalogue.recordOf b = s.assetOf b := by
  rw [Catalogue.recordOf, get?_catalogue]
  split
  · rfl
  · rename_i unknown
    obtain ⟨files, mentions⟩ := not_or.mp unknown
    rw [assetOf, Classical.not_not.mp files, Classical.not_not.mp mentions]
    rfl

section Insert

variable {front back : List SourceMention} {names : List Text} {source : Bytes}
  {format : SourceFormat}

theorem filesOf_insert (images : s'.images = s.images) (b : Text) :
    s'.filesOf b = s.filesOf b := by
  rw [filesOf, filesOf, images]

theorem mentionsOf_append {more : List SourceMention}
    (all : s'.mentions = front ++ more ++ back) (b : Text) :
    s'.mentionsOf b = front.filter (bundleName ·.name = b) ++
      more.filter (bundleName ·.name = b) ++ back.filter (bundleName ·.name = b) := by
  rw [mentionsOf, all, List.filter_append, List.filter_append]

/-- The references under a name stay in order, and the source stands between
them as often as it mentions the name. -/
theorem references_insert (less : s.mentions = front ++ back)
    (more : s'.mentions = front ++ names.map (⟨·, source, format⟩) ++ back) (b : Text) :
    ∃ before after, (s.assetOf b).references = before ++ after ∧
      (s'.assetOf b).references =
        before ++ List.replicate (names.countP (bundleName · = b)) source ++ after := by
  have new : ((names.map fun n => SourceMention.mk n source format).filter
      (bundleName ·.name = b)).map (·.source) =
        List.replicate (names.countP (bundleName · = b)) source := by
    rw [List.filter_map, List.map_map, List.countP_eq_length_filter]
    exact List.map_const' ..
  refine ⟨(front.filter (bundleName ·.name = b)).map (·.source),
    (back.filter (bundleName ·.name = b)).map (·.source), ?_, ?_⟩
  · rw [assetOf, mentionsOf, less, List.filter_append, List.map_append]
  · rw [assetOf, mentionsOf_append more, List.map_append, List.map_append, new]

/-- A name that the source does not mention stays as it is. -/
theorem get?_of_unmentioned (images : s'.images = s.images) (less : s.mentions = front ++ back)
    (more : s'.mentions = front ++ names.map (⟨·, source, format⟩) ++ back)
    (unmentioned : b ∉ names.map bundleName) : s'.catalogue.get? b = s.catalogue.get? b := by
  have none : (names.map fun n => SourceMention.mk n source format).filter
      (bundleName ·.name = b) = [] := by
    rw [List.filter_map, List.map_eq_nil_iff, List.filter_eq_nil_iff]
    intro n hn e
    exact unmentioned (List.mem_map.mpr ⟨n, hn, of_decide_eq_true e⟩)
  have mentions : s'.mentionsOf b = s.mentionsOf b := by
    rw [mentionsOf_append more, none, List.append_nil, mentionsOf, less, List.filter_append]
  rw [get?_catalogue, get?_catalogue, assetOf, assetOf, mentions, filesOf_insert images]

/-- A name that the source mentions is known, with references. -/
theorem get?_of_mentioned
    (more : s'.mentions = front ++ names.map (⟨·, source, format⟩) ++ back)
    (mentioned : b ∈ names.map bundleName) :
    s'.catalogue.get? b = some (s'.assetOf b) ∧ (s'.assetOf b).references ≠ [] := by
  obtain ⟨n, hn, rfl⟩ := List.mem_map.mp mentioned
  have some : s'.mentionsOf (bundleName n) ≠ [] := by
    rw [mentionsOf_ne_nil_iff, more]
    refine ⟨⟨n, source, format⟩, ?_, rfl⟩
    exact List.mem_append_left _ (List.mem_append_right _ (List.mem_map_of_mem hn))
  refine ⟨?_, mt List.map_eq_nil_iff.mp some⟩
  rw [get?_catalogue, if_pos (.inr some)]

end Insert

end Survey

/-! ### A file more in the tree -/

namespace Walk

variable {w : Walk} {top : List Entry} {here l : Location} {listing : List Entry}
  {contents : Bytes}

/-- **What a new file changes in an audit.**  A file that is left out, or is no
source, changes nothing.  With a source the audit succeeds as before, if the
system takes the path of the source; otherwise it fails at the source.  What is
known under a name that the source does not mention stays the same.  Under a
name that it mentions the files stay the same, and its path from the root is put
in among the references once for each mention.  If there are files, the findings
are those that were there, without that references are missing; if there are
none, the one finding is that files are missing. -/
theorem audit_of_added_file (tree : IsTree w.fs.top) (tree' : IsTree top)
    (names : KeepsNames top) (unlinked : IsUnlinked w.fs.top)
    (root : w.fs.lookup .follow w.root = .ok (.directory here listing))
    (adds : AddsFile w.fs.top top (here ++ l) contents) (below : l ≠ [])
    (image : isImageName (Utf8.decodeLossy (l.getLast below)) = false) :
    let name := Utf8.decodeLossy (l.getLast below)
    let path := Path.joinAll w.root l
    let w' := w.onTree top
    (¬w.Keeps w.root l ∨ (∀ format : SourceFormat, format.isOf name = false) →
      w'.audit = w.audit) ∧
    ∀ format : SourceFormat, w.Keeps w.root l → format.isOf name = true →
      ((∃ r, w'.audit = .ok r) ↔ (∃ r, w.audit = .ok r) ∧ path.length < pathLimit) ∧
      ((∃ r, w.audit = .ok r) → pathLimit ≤ path.length →
        w'.audit = .error (.read path .nameTooLong)) ∧
      ∀ s s', w.survey = .ok s → w'.survey = .ok s' →
        let mentions := format.mentions (sourceText contents)
        ∀ b : Text,
          (b ∉ mentions.map bundleName → s'.catalogue.get? b = s.catalogue.get? b) ∧
          (b ∈ mentions.map bundleName →
            let a := s.catalogue.recordOf b
            ∃ a', s'.catalogue.get? b = some a' ∧ a'.files = a.files ∧
              (a.files ≠ [] → a'.findings = a.findings.filter (!·.isMissingReferences)) ∧
              (a.files = [] → a'.findings = [.missingFiles b a'.references]) ∧
              ∃ before after, a.references = before ++ after ∧
                a'.references = before ++
                  List.replicate (mentions.countP (bundleName · = b)) ([0x2F].intercalate l) ++
                  after) := by
  intro name path w'
  obtain ⟨listing', root'⟩ := FileSystem.lookup_directory_of_kept (fun _ _ => adds.kept) root
  have listed := FileSystem.listingAt?_of_lookup root
  have listed' := FileSystem.listingAt?_of_lookup root'
  let a : w.Addition := {
    top := top
    here := here
    listing := listing
    listing' := listing'
    place := l
    contents := contents
    tree := tree
    tree' := tree'
    unlinked := unlinked.of_listingAt? listed
    names := names.of_listingAt? listed'
    root := root
    root' := root'
    adds := adds.of_listingAt? below listed listed' }
  have called : a.name = name := by
    show Utf8.decodeLossy (l.getLast?.getD []) = _
    rw [List.getLast?_eq_some_getLast below]
    rfl
  have image : isImageName a.name = false := called ▸ image
  constructor
  · rintro (out | unwanted)
    · exact a.audit_of_leftOut out
    · exact a.audit_of_unwanted image (called ▸ unwanted)
  intro format kept named
  have named : format.isOf a.name = true := called ▸ named
  refine ⟨a.exists_audit_iff kept named, a.audit_of_long kept named, ?_⟩
  intro s s' h h' mentions b
  obtain ⟨images, front, back, less, more⟩ := a.survey_insert kept image named h h'
  refine ⟨Survey.get?_of_unmentioned images less more, ?_⟩
  intro mentioned
  obtain ⟨known, some⟩ := Survey.get?_of_mentioned more mentioned
  have same := Survey.filesOf_insert images b
  rw [Survey.recordOf_catalogue]
  refine ⟨s'.assetOf b, known, same, ?_, ?_, Survey.references_insert less more b⟩
  · intro filed
    rw [Survey.assetOf, Survey.assetOf, same]
    exact Asset.findings_of_references filed some
  · intro unfiled
    apply Asset.findings_of_lacksFiles
    exact List.isEmpty_iff.mpr (same.trans unfiled)

end Walk

/-- A project with an image, and a source that mentions another. -/
def logoAndGhost : Walk where
  fs := {
    top := [.directory (Utf8.encode "p".toList) [
      .file (Utf8.encode "logo.png".toList) [],
      .directory (Utf8.encode "src".toList) [
        .file (Utf8.encode "A.m".toList) (Utf8.encode "imageNamed:@\"ghost\"".toList)]]]
    workingDirectory := [Utf8.encode "p".toList] }
  exclusion := .standard
  root := Utf8.encode ".".toList

/-- With a source that mentions the image, and twice the other one, the image is
no longer reported as mentioned nowhere, and the other one still as missing. -/
theorem audit_of_logoAndGhost :
    let p := Utf8.encode "p".toList
    let src := Utf8.encode "src".toList
    let source : Entry := .file (Utf8.encode "B.m".toList)
      (Utf8.encode "imageNamed:@\"ghost\" imageNamed:@\"logo\" imageNamed:@\"ghost\"".toList)
    let w' := logoAndGhost.onTree (changeAt (putEntry source) [p, src] logoAndGhost.fs.top)
    ∃ s s', logoAndGhost.survey = .ok s ∧ w'.survey = .ok s' ∧
      (∃ a, s'.catalogue.get? "logo".toList = some a ∧ a.findings =
        (s.catalogue.recordOf "logo".toList).findings.filter (!·.isMissingReferences)) ∧
      ∃ a, s'.catalogue.get? "ghost".toList = some a ∧
        a.findings = [.missingFiles "ghost".toList a.references] := by
  intro p src source w'
  have tree : IsTree logoAndGhost.fs.top := by decide
  have tree' : IsTree w'.fs.top := by decide
  have names : KeepsNames w'.fs.top := .of_census (by decide)
  have unlinked : IsUnlinked logoAndGhost.fs.top := .of_census (by decide)
  have adds : AddsFile logoAndGhost.fs.top w'.fs.top ([p] ++ [src, source.name]) _ :=
    .of_changeAt (show listingAt? _ [p, src] = some _ from rfl) (by decide)
  have root : logoAndGhost.fs.lookup .follow logoAndGhost.root = .ok (.directory [p] _) := rfl
  have files : logoAndGhost.survey.map (fun s => ((s.catalogue.recordOf "logo".toList).files,
      (s.catalogue.recordOf "ghost".toList).files)) = .ok (["logo.png".toList], []) := by rfl
  obtain ⟨s, surveyed, files⟩ := Except.map_eq_ok_iff.mp files
  have audited : logoAndGhost.audit = .ok s.report := by
    rw [Walk.audit_eq, surveyed]
    rfl
  have kept : logoAndGhost.Keeps logoAndGhost.root [src, source.name] :=
    Walk.keeps_cons.mpr ⟨by decide, Walk.keeps_cons.mpr ⟨by decide, Walk.keeps_nil⟩⟩
  obtain ⟨_, changes⟩ := Walk.audit_of_added_file tree tree' names unlinked root adds
    (List.cons_ne_nil _ _) (by decide)
  obtain ⟨succeeds, _, records⟩ := changes .objectiveC kept (by decide)
  obtain ⟨_, audited'⟩ := succeeds.mpr ⟨⟨_, audited⟩, by decide⟩
  obtain ⟨c', _⟩ := Walk.audit_eq_ok_iff.mp audited'
  have surveyed' := c'.survey_eq
  have known := records s _ surveyed surveyed'
  obtain ⟨a, logo, _, filed, _⟩ := (known "logo".toList).2 (by decide)
  obtain ⟨b, ghost, _, _, unfiled, _⟩ := (known "ghost".toList).2 (by decide)
  refine ⟨s, _, surveyed, surveyed', ⟨a, logo, filed ?_⟩, b, ghost, unfiled ?_⟩
  · rw [(Prod.mk.inj files).1]
    exact List.cons_ne_nil _ _
  · exact (Prod.mk.inj files).2

/-- An empty project whose root is written with 4093 bytes. -/
def emptyProject : Walk where
  fs := {
    top := [.directory (Utf8.encode "p".toList) []]
    workingDirectory := [Utf8.encode "p".toList] }
  exclusion := .standard
  root := 0x2E :: (List.replicate 2046 [0x2F, 0x2E]).flatten

/-- A source in it is found, but it cannot be read, so no image is reported
whose files are missing. -/
theorem emptyProject_source_unread :
    let p := Utf8.encode "p".toList
    let m := Utf8.encode "p.m".toList
    let contents := Utf8.encode "imageNamed:@\"ghost\"".toList
    let w := emptyProject
    let w' := w.onTree [.directory p [.file m contents]]
    (IsTree w.fs.top ∧ IsUnlinked w.fs.top ∧ IsTree w'.fs.top ∧
      w.fs.lookup .follow w.root = .ok (.directory [p] []) ∧
      AddsFile w.fs.top w'.fs.top [p, m] contents) ∧
    (w.Keeps w.root [m] ∧ SourceFormat.objectiveC.isOf (Utf8.decodeLossy m) = true ∧
      SourceFormat.objectiveC.mentions (sourceText contents) = ["ghost".toList]) ∧
    (∃ r, w.audit = .ok r) ∧
    ¬∃ r, w'.audit = .ok r ∧ .missingFiles (bundleName "ghost".toList) [m] ∈ r.findings := by
  intro p m contents w w'
  have tree : IsTree w.fs.top := by decide
  have tree' : IsTree w'.fs.top := by decide
  have unlinked : IsUnlinked w.fs.top := .of_census (by decide)
  have still : ∀ s ∈ Path.segments w.root, (s.isEmpty || Path.isDot s) = true := by
    decide +kernel
  have root : w.fs.lookup .follow w.root = .ok (.directory [p] []) :=
    FileSystem.lookup_of_still (by decide +kernel) rfl (by decide +kernel) rfl still rfl
  have root' : w'.fs.lookup .follow w.root = .ok (.directory [p] [.file m contents]) :=
    FileSystem.lookup_of_still (by decide +kernel) rfl (by decide +kernel) rfl still rfl
  have adds : AddsFile w.fs.top w'.fs.top ([p] ++ [m]) contents :=
    .of_changeAt (show listingAt? w.fs.top [p] = some [] from rfl) List.not_mem_nil
  have kept : w.Keeps w.root [m] := Walk.keeps_cons.mpr ⟨by decide +kernel, Walk.keeps_nil⟩
  have named : SourceFormat.objectiveC.isOf (Utf8.decodeLossy m) = true := by decide
  have long : pathLimit ≤ (Path.joinAll w.root [m]).length := by decide +kernel
  let a : w.Addition := {
    top := w'.fs.top
    here := [p]
    listing := []
    listing' := [.file m contents]
    place := [m]
    contents := contents
    tree := tree
    tree' := tree'
    unlinked := .of_census (by decide)
    names := .of_census (by decide)
    root := root
    root' := root'
    adds := .of_putEntry List.not_mem_nil }
  have found : w.found = .ok [] := Walk.found_of_lookup root
  have audited : ∃ r, w.audit = .ok r := ⟨_, Walk.audit_of_readable found nofun⟩
  have fails := a.audit_of_long kept named audited long
  refine ⟨⟨tree, unlinked, tree', root, adds⟩, ⟨kept, named, by decide⟩, audited, ?_⟩
  rintro ⟨r, ok, _⟩
  cases ok.symm.trans fails

end AssetAudit

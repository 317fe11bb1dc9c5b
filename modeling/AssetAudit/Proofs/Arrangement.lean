/-
AssetAudit/Proofs/Arrangement.lean

The order of a report.

A survey brings all image files before any mention, and an asset that is there
keeps its place whatever is brought later.  So a catalogue falls into two
parts: the images with files, in the order of their first files, and behind
them those that are only mentioned, in the order of their first mentions
(`Survey.assets_eq_append`).

An image without files makes one finding, that they are missing, and all its
other checks are silent (`Asset.findings_of_lacksFiles`).  An image with files
makes any finding but that one, at most one in each group of checks, and in the
order of the groups (`Asset.group_ascending`).

Main result: `findings_in_two_parts` puts this together for the findings of an
audit.
-/
import AssetAudit.Proofs.Matching

namespace AssetAudit

/-! ### Groups of checks -/

namespace Finding

/-- The group of checks that makes the finding. -/
def group : Finding → Nat
  | .missingFiles _ _ => 1
  | .missing .references _ => 1
  | .missing .retina _ => 2
  | .missing .standard _ => 2
  | .missing .iphone _ => 3
  | .missing .ipad _ => 3
  | .duplicates _ => 4

/-- The finding is that an image has no file. -/
def isMissingFiles : Finding → Bool
  | .missingFiles _ _ => true
  | _ => false

end Finding

namespace Asset

variable {a : Asset}

theorem eq_of_missing? {p : Part} {f : Finding} (h : a.missing? p = some f) :
    f = .missing p a.shownName := by
  rw [missing?] at h
  split at h
  · exact (Option.some.inj h).symm
  · cases h

theorem eq_of_missingFiles? {f : Finding} (h : a.missingFiles? = some f) :
    f = .missingFiles a.bundle a.references := by
  rw [missingFiles?] at h
  split at h
  · exact (Option.some.inj h).symm
  · cases h

theorem eq_of_duplicates? {f : Finding} (h : a.duplicates? = some f) :
    f = .duplicates a.files := by
  rw [duplicates?] at h
  split at h
  · exact (Option.some.inj h).symm
  · cases h

/-- A finding of either check of a group is a finding of the group. -/
theorem group_of_orElse {x y : Option Finding} {n : Nat} (hx : ∀ f, x = some f → f.group = n)
    (hy : ∀ f, y = some f → f.group = n) : ∀ f, (x <|> y) = some f → f.group = n := by
  intro f h
  cases x with
  | none => exact hy f h
  | some g => exact hx f h

/-- A group goes in front of groups of higher numbers. -/
theorem group_ascending_append {x : Option Finding} {n : Nat} {fs : List Finding}
    (hx : ∀ f, x = some f → f.group = n + 1)
    (h : (fs.map Finding.group).Pairwise (· < ·) ∧ ∀ f ∈ fs, n + 1 < f.group) :
    ((x.toList ++ fs).map Finding.group).Pairwise (· < ·) ∧ ∀ f ∈ x.toList ++ fs, n < f.group := by
  obtain ⟨ascending, above⟩ := h
  cases x with
  | none => exact ⟨ascending, fun f hf => Nat.lt_of_succ_lt (above f hf)⟩
  | some g =>
    have here : g.group = n + 1 := hx g rfl
    rw [Option.toList_some, List.singleton_append, List.map_cons, List.pairwise_cons,
      List.forall_mem_map, List.forall_mem_cons, here]
    exact ⟨⟨above, ascending⟩, n.lt_succ_self, fun f hf => Nat.lt_of_succ_lt (above f hf)⟩

/-- The findings on an image are in the order of the groups, one of each at
most. -/
theorem group_ascending (a : Asset) : (a.findings.map Finding.group).Pairwise (· < ·) := by
  have part (p : Part) (n : Nat) (hp : ∀ image, (Finding.missing p image).group = n) :
      ∀ f, a.missing? p = some f → f.group = n := by
    intro f h
    rw [eq_of_missing? h]
    exact hp _
  have first : ∀ f, (a.missingFiles? <|> a.missing? .references) = some f → f.group = 1 := by
    apply group_of_orElse _ (part _ _ fun _ => rfl)
    intro f h
    rw [eq_of_missingFiles? h]
    rfl
  have second := group_of_orElse (part .retina 2 fun _ => rfl) (part .standard 2 fun _ => rfl)
  have third := group_of_orElse (part .iphone 3 fun _ => rfl) (part .ipad 3 fun _ => rfl)
  have fourth : ∀ f, a.duplicates? = some f → f.group = 4 := by
    intro f h
    rw [eq_of_duplicates? h]
    rfl
  have nothing : (([] : List Finding).map Finding.group).Pairwise (· < ·) ∧
      ∀ f ∈ ([] : List Finding), 4 < f.group := by simp
  -- from the last group forwards
  have all := group_ascending_append first <| group_ascending_append second <|
    group_ascending_append third <| group_ascending_append fourth nothing
  rw [findings_eq_groups]
  simpa only [List.append_assoc, List.append_nil] using all.1

theorem length_findings_le (a : Asset) : a.findings.length ≤ 4 :=
  List.length_filterMap_le _ _

/-- An image without files is told of by that alone. -/
theorem findings_of_lacksFiles (h : a.lacksFiles = true) :
    a.findings = [.missingFiles a.bundle a.references] := by
  have none : a.files = [] := List.isEmpty_iff.mp h
  have silent (p : Part) (hp : a.lacks p = false) : a.missing? p = Option.none :=
    missing?_eq_none hp
  have variants (test : Text → Bool) : a.allFiles test = false := by
    rw [allFiles, h]
    rfl
  rw [findings_eq_groups, missingFiles?, if_pos h, silent .retina (variants _),
    silent .standard (variants _), silent .iphone (variants _), silent .ipad (variants _),
    duplicates?, hasDuplicates, none]
  rfl

/-- An image with files is not told of as one without. -/
theorem isMissingFiles_of_mem_findings (h : a.lacksFiles = false) :
    ∀ f ∈ a.findings, f.isMissingFiles = false := by
  have known : a.files ≠ [] := by
    rintro none
    rw [lacksFiles, none] at h
    cases h
  intro f hf
  rcases (mem_findings_iff (.inl known)).mp hf with ⟨lacks, _⟩ | ⟨_, _, rfl⟩ | ⟨_, rfl⟩
  · rw [h] at lacks
    cases lacks
  · rfl
  · rfl

end Asset

/-! ### Names in the order of their first use -/

/-- What is first under each name comes in the order of the names. -/
theorem exists_firsts {α : Type} (key : α → Text) (xs : List α) :
    ∃ firsts : List α, firsts.Sublist xs ∧
      (xs.map key).eraseDups.map (fun b => xs.find? (key · = b)) = firsts.map some := by
  -- behind the first one the names go on with those of other names
  generalize hn : xs.length = n
  induction n using Nat.strongRecOn generalizing xs with
  | ind n ih =>
    cases xs with
    | nil => exact ⟨[], .slnil, rfl⟩
    | cons x xs =>
      let others := xs.filter (key · ≠ key x)
      have shorter : others.length < n := by
        rw [← hn]
        exact Nat.lt_succ_of_le (List.length_filter_le _ _)
      obtain ⟨firsts, sub, found⟩ := ih _ shorter others rfl
      refine ⟨x :: firsts, .cons_cons x (sub.trans List.filter_sublist), ?_⟩
      have names : ((x :: xs).map key).eraseDups = key x :: (others.map key).eraseDups := by
        rw [List.map_cons, List.eraseDups_cons, List.filter_map]
        congr 4
        funext y
        show (!key y == key x) = decide (key y ≠ key x)
        rw [beq_eq_decide, decide_not]
      have here : (x :: xs).find? (key · = key x) = some x := by
        rw [List.find?_cons, decide_eq_true rfl]
      rw [names, List.map_cons, List.map_cons, ← found, here]
      congr 1
      apply List.map_congr_left
      intro b hb
      obtain ⟨y, hy, rfl⟩ := List.mem_map.mp (List.mem_eraseDups.mp hb)
      have other : key y ≠ key x := of_decide_eq_true (List.mem_filter.mp hy).2
      rw [List.find?_cons, decide_eq_false other.symm, List.find?_filter]
      show xs.find? _ = xs.find? _
      congr 1
      funext z
      by_cases hz : key z = key y
      · simp [hz, other]
      · simp [hz]

/-! ### The two parts of a catalogue -/

namespace Survey

/-- The bundle names of the image files. -/
def imageNames (s : Survey) : List Text :=
  s.images.map fun p => bundleName (Utf8.decodeLossy p)

/-- The bundle names that are mentioned and no image file comes to. -/
def namesWithoutFile (s : Survey) : List Text :=
  (s.mentions.map fun m => bundleName m.name).filter (· ∉ s.imageNames)

theorem lacksFiles_assetOf_iff {s : Survey} {b : Text} :
    (s.assetOf b).lacksFiles = true ↔ b ∉ s.imageNames := by
  rw [Asset.lacksFiles, List.isEmpty_iff, imageNames, List.mem_map]
  show s.filesOf b = [] ↔ _
  rw [filesOf_eq_nil_iff]
  simp only [not_exists, not_and, ne_eq]

/-- The images with files come first, in the order of their first files, and
then those that are only mentioned, in the order of their first mentions. -/
theorem assets_eq_append (s : Survey) :
    s.catalogue.assets = s.imageNames.eraseDups.map s.assetOf ++
      s.namesWithoutFile.eraseDups.map s.assetOf := by
  have rest : (s.mentions.map fun m => bundleName m.name).removeAll s.imageNames =
      s.namesWithoutFile := by
    rw [namesWithoutFile, List.removeAll]
    congr 1
    funext b
    simp
  rw [assets_catalogue, names, List.eraseDups_append, List.map_append, ← rest]
  rfl

theorem filter_assets (s : Survey) :
    s.catalogue.assets.filter (!·.lacksFiles) = s.imageNames.eraseDups.map s.assetOf ∧
      s.catalogue.assets.filter (·.lacksFiles) = s.namesWithoutFile.eraseDups.map s.assetOf := by
  have filed : ∀ a ∈ s.imageNames.eraseDups.map s.assetOf, a.lacksFiles = false := by
    intro a ha
    obtain ⟨b, hb, rfl⟩ := List.mem_map.mp ha
    rw [← Bool.not_eq_true, lacksFiles_assetOf_iff, not_not]
    exact List.mem_eraseDups.mp hb
  have unfiled : ∀ a ∈ s.namesWithoutFile.eraseDups.map s.assetOf, a.lacksFiles = true := by
    intro a ha
    obtain ⟨b, hb, rfl⟩ := List.mem_map.mp ha
    have outside := (List.mem_filter.mp (List.mem_eraseDups.mp hb)).2
    exact lacksFiles_assetOf_iff.mpr (of_decide_eq_true outside)
  rw [assets_eq_append, List.filter_append, List.filter_append]
  constructor
  · rw [List.filter_eq_self.mpr fun a ha => by rw [filed a ha]; rfl,
      List.filter_eq_nil_iff.mpr fun a ha => by rw [unfiled a ha]; exact Bool.false_ne_true,
      List.append_nil]
  · rw [List.filter_eq_nil_iff.mpr fun a ha => by rw [filed a ha]; exact Bool.false_ne_true,
      List.filter_eq_self.mpr unfiled, List.nil_append]

theorem map_bundle_assetOf (s : Survey) (names : List Text) :
    (names.map s.assetOf).map (·.bundle) = names := by
  rw [List.map_map]
  exact List.map_id names

end Survey

/-- **A report has two parts.**  First come the findings on the images that
have files, image by image in the order of their first files in the walk; none
of them is that files are missing, and each image makes at most one in each of
the four groups of checks, in the order of the groups.  Then comes one finding
for each image that has no file, in the order of the first mentions: that files
are missing, with at least one source.  Such an image makes no other
finding. -/
theorem Walk.findings_in_two_parts {w : Walk} {r : Report} (h : w.audit = .ok r) :
    ∃ c : w.Collection, w.survey = .ok c.toSurvey ∧
      let assets := c.toSurvey.catalogue.assets
      let filed := assets.filter (!·.lacksFiles)
      let unfiled := assets.filter (·.lacksFiles)
      assets = filed ++ unfiled ∧
      r.findings = filed.flatMap Asset.findings ++
        unfiled.map (fun a => .missingFiles a.bundle a.references) ∧
      filed.map (·.bundle) = (c.images.map fun p => bundleName (Utf8.decodeLossy p)).eraseDups ∧
      (∃ firsts : List Text, firsts.Sublist (c.images.map Utf8.decodeLossy) ∧
        filed.map Asset.firstFile? = firsts.map some) ∧
      (∀ a ∈ filed, (∀ f ∈ a.findings, f.isMissingFiles = false) ∧ a.findings.length ≤ 4 ∧
        (a.findings.map Finding.group).Pairwise (· < ·)) ∧
      unfiled.map (·.bundle) = ((c.mentions.map fun m => bundleName m.name).filter
        (· ∉ filed.map (·.bundle))).eraseDups ∧
      ∀ a ∈ unfiled, a.references ≠ [] ∧
        a.findings = [.missingFiles a.bundle a.references] := by
  obtain ⟨c, rfl⟩ := Walk.audit_eq_ok_iff.mp h
  refine ⟨c, c.survey_eq, ?_⟩
  intro assets filed unfiled
  obtain ⟨filed_eq, unfiled_eq⟩ := c.toSurvey.filter_assets
  have parts : assets = filed ++ unfiled := by
    show c.toSurvey.catalogue.assets = filed ++ unfiled
    rw [Survey.assets_eq_append, ← filed_eq, ← unfiled_eq]
  have lacks : ∀ a ∈ unfiled, a.lacksFiles = true := fun a ha => (List.mem_filter.mp ha).2
  have has : ∀ a ∈ filed, a.lacksFiles = false := by
    intro a ha
    rw [← Bool.not_eq_true']
    exact (List.mem_filter.mp ha).2
  have bundles : filed.map (·.bundle) = c.toSurvey.imageNames.eraseDups := by
    show (List.filter _ _).map _ = _
    rw [filed_eq, Survey.map_bundle_assetOf]
  refine ⟨parts, ?_, bundles, ?_, ?_, ?_, ?_⟩
  · rw [Survey.findings_report, Catalogue.findings,
      show c.toSurvey.catalogue.assets = filed ++ unfiled from parts, List.flatMap_append,
      List.map_eq_flatMap, List.flatMap_def (l := unfiled), List.flatMap_def (l := unfiled),
      List.map_congr_left fun a ha => Asset.findings_of_lacksFiles (lacks a ha)]
  · obtain ⟨firsts, sub, found⟩ := exists_firsts bundleName (c.images.map Utf8.decodeLossy)
    refine ⟨firsts, sub, ?_⟩
    rw [← found]
    show (List.filter _ _).map _ = _
    rw [filed_eq, List.map_map, Survey.imageNames, List.map_map]
    apply List.map_congr_left
    intro b _
    exact List.head?_filter
  · intro a ha
    exact ⟨Asset.isMissingFiles_of_mem_findings (has a ha), a.length_findings_le,
      a.group_ascending⟩
  · show (List.filter _ _).map _ = _
    rw [unfiled_eq, Survey.map_bundle_assetOf, Survey.namesWithoutFile]
    congr 2
    funext b
    rw [bundles]
    simp only [List.mem_eraseDups]
  · intro a ha
    refine ⟨?_, Asset.findings_of_lacksFiles (lacks a ha)⟩
    -- it is known, and not by a file
    have known : a ∈ c.toSurvey.catalogue.assets := (List.mem_filter.mp ha).1
    rw [Survey.catalogue_eq_ofSightings] at known
    rcases Catalogue.files_or_references known with files | references
    · exact absurd (List.isEmpty_iff.mp (lacks a ha)) files
    · exact references

/-- The parts of the report on a project with one image, which is mentioned
nowhere, and two mentions of another. -/
theorem two_parts_of_ghostProject :
    let ghost : Finding := .missingFiles "ghost".toList
      [Utf8.encode "A.m".toList, Utf8.encode "B.mm".toList]
    let logo (p : Part) : Finding := .missing p "logo.png".toList
    let r : Report := ⟨[logo .references, logo .retina, ghost], ⟨1, 2, 2, 2, 3⟩⟩
    ghostProject.audit = .ok r ∧ ∃ c : ghostProject.Collection,
      (c.toSurvey.catalogue.assets.filter (!·.lacksFiles)).flatMap Asset.findings =
        [logo .references, logo .retina] ∧
      (c.toSurvey.catalogue.assets.filter (·.lacksFiles)).map
        (fun a => .missingFiles a.bundle a.references) = [ghost] := by
  intro ghost logo r
  have audit : ghostProject.audit = .ok r := by rfl
  obtain ⟨c, _, _, split, _, _, kinds, _, _⟩ := Walk.findings_in_two_parts audit
  refine ⟨audit, c, ?_⟩
  generalize c.toSurvey.catalogue.assets.filter (·.lacksFiles) = unfiled at split ⊢
  generalize c.toSurvey.catalogue.assets.filter (!·.lacksFiles) = filed at split kinds ⊢
  -- the parts are told apart by the kind of their findings
  have front : ∀ f ∈ filed.flatMap Asset.findings, (!f.isMissingFiles) = true := by
    intro f hf
    obtain ⟨a, ha, hf⟩ := List.mem_flatMap.mp hf
    rw [(kinds a ha).1 f hf]
    rfl
  have back : ∀ f ∈ unfiled.map fun a => Finding.missingFiles a.bundle a.references,
      ¬(!f.isMissingFiles) = true := by
    intro f hf
    obtain ⟨a, _, rfl⟩ := List.mem_map.mp hf
    exact Bool.false_ne_true
  have cut := congrArg (List.filter (!·.isMissingFiles)) split
  rw [List.filter_append, List.filter_eq_self.mpr front, List.filter_eq_nil_iff.mpr back,
    List.append_nil] at cut
  have first : filed.flatMap Asset.findings = [logo .references, logo .retina] := cut.symm
  refine ⟨first, ?_⟩
  rw [first] at split
  have whole : [logo .references, logo .retina] ++ [ghost] = _ ++ _ := split
  exact (List.append_cancel_left whole).symm

end AssetAudit

/-
AssetAudit/Proofs/Pruning.lean

What is left out has no influence.

Whether an entry is left out is decided by its name and by its path from the
root, and these are the same wherever the root is and whatever is beside the
entry.  So what a walk leaves out can be cut off a listing before the walk is
made:

* `Exclusion.Admits` — no name of a location is left out, told without a root;
* `Exclusion.pruned` — the listing without the entries that are left out and all
  that is below them.  It has the locations that are admitted
  (`kindBelow?_pruned`).

What a walk meets is what is met in the pruned listing (`meets_iff_pruned`).  So
two projects that are the same when they are pruned make one audit
(`audit_of_pruned`): the walks find the same files, and what is found is read
by the same paths.
-/
import AssetAudit.Proofs.Insertion

namespace AssetAudit

/-! ### Cutting off what is left out -/

namespace Exclusion

variable {x : Exclusion} {above l : Location} {n : Bytes} {listing : List Entry}

/-- The entry of that name in the directory that lies at `above` from the root is
left out. -/
def cuts (x : Exclusion) (above : Location) (n : Bytes) : Bool :=
  x.leavesOut n ([0x2F].intercalate (above ++ [n]))

/-- Neither the entry at the location nor any on the way there is left out,
where the way starts at `above` from the root. -/
def Admits (x : Exclusion) (above l : Location) : Prop :=
  ∀ between n, between ++ [n] <+: l → x.cuts (above ++ between) n = false

theorem admits_cons :
    x.Admits above (n :: l) ↔ x.cuts above n = false ∧ x.Admits (above ++ [n]) l := by
  constructor
  · intro h
    refine ⟨?_, ?_⟩
    · have first := h [] n (List.cons_prefix_cons.mpr ⟨rfl, List.nil_prefix⟩)
      rwa [List.append_nil] at first
    · intro between m isPrefix
      have later := h (n :: between) m (List.cons_prefix_cons.mpr ⟨rfl, isPrefix⟩)
      rwa [List.append_assoc, List.singleton_append]
  · rintro ⟨first, later⟩ between m isPrefix
    cases between with
    | nil =>
      obtain ⟨rfl, _⟩ := List.cons_prefix_cons.mp isPrefix
      rwa [List.append_nil]
    | cons a between =>
      obtain ⟨rfl, inside⟩ := List.cons_prefix_cons.mp isPrefix
      have deeper := later between m inside
      rwa [List.append_assoc, List.singleton_append] at deeper

theorem admits_nil : x.Admits above [] := by
  intro between m isPrefix
  exact absurd (List.prefix_nil.mp isPrefix) (List.append_ne_nil_of_right_ne_nil _ nofun)

mutual

/-- The entry without what is left out below it. -/
def prunedEntry (x : Exclusion) (above : Location) : Entry → Entry
  | .directory n inner => .directory n (x.pruned (above ++ [n]) inner)
  | e => e

/-- The listing without what is left out of it and below it. -/
def pruned (x : Exclusion) (above : Location) : List Entry → List Entry
  | [] => []
  | e :: rest =>
    if x.cuts above e.name then x.pruned above rest
    else x.prunedEntry above e :: x.pruned above rest

end

theorem prunedEntry_name (e : Entry) : (x.prunedEntry above e).name = e.name := by
  cases e with
  | directory n inner => rw [prunedEntry]; rfl
  | _ => rw [prunedEntry]; exact nofun

theorem prunedEntry_kind (e : Entry) : (x.prunedEntry above e).kind = e.kind := by
  cases e with
  | directory n inner => rw [prunedEntry]; rfl
  | _ => rw [prunedEntry]; exact nofun

/-- A name leads to what it led to before, unless it is left out. -/
theorem entryOf?_pruned (x : Exclusion) (above : Location) (listing : List Entry) (n : Bytes) :
    entryOf? (x.pruned above listing) n =
      if x.cuts above n then none else (entryOf? listing n).map (x.prunedEntry above) := by
  induction listing with
  | nil =>
    rw [pruned]
    split <;> rfl
  | cons e rest ih =>
    rw [pruned, entryOf?_cons e rest]
    by_cases name : e.name = n
    · subst name
      rw [if_pos rfl]
      by_cases out : x.cuts above e.name = true
      · rw [if_pos out, ih, if_pos out, if_pos out]
      · rw [if_neg out, if_neg out, entryOf?_cons, prunedEntry_name, if_pos rfl]
        rfl
    · rw [if_neg name, ← ih]
      split
      · rfl
      · rw [entryOf?_cons, prunedEntry_name, if_neg name]

/-- **A pruned listing has the locations that are admitted**, and they lead to
what they led to before. -/
theorem kindBelow?_pruned {k : Kind} :
    kindBelow? (x.pruned above listing) l = some k ↔
      kindBelow? listing l = some k ∧ x.Admits above l := by
  -- the way leads down one directory after the other, from `above`
  induction l generalizing above listing with
  | nil => exact ⟨fun h => (by cases h), fun h => h.1⟩
  | cons n l ih =>
    rw [admits_cons]
    have entry := entryOf?_pruned x above listing n
    by_cases out : x.cuts above n = true
    · have nothing : kindBelow? (x.pruned above listing) (n :: l) = none := by
        rw [if_pos out] at entry
        cases l <;> rw [kindBelow?, entry]
        rfl
      rw [nothing, out]
      exact iff_of_false (by simp) (by simp)
    rw [if_neg out] at entry
    rw [Bool.not_eq_true] at out
    rw [out, and_iff_right rfl]
    cases l with
    | nil =>
      have kinds : Entry.kind ∘ x.prunedEntry above = Entry.kind := funext prunedEntry_kind
      rw [kindBelow?, kindBelow?, entry, Option.map_map, kinds, and_iff_left admits_nil]
    | cons m l =>
      rw [kindBelow?, kindBelow?, entry]
      cases found : entryOf? listing n with
      | none => exact iff_of_false (by simp) (by simp)
      | some e =>
        cases e with
        | file _ _ =>
          rw [Option.map_some, prunedEntry]
          · exact iff_of_false (by simp) (by simp)
          · exact fun _ _ same => by cases same
        | link _ _ =>
          rw [Option.map_some, prunedEntry]
          · exact iff_of_false (by simp) (by simp)
          · exact fun _ _ same => by cases same
        | directory m' inner =>
          obtain rfl : m' = n := (mem_of_entryOf? found).2
          rw [Option.map_some, prunedEntry]
          exact ih

end Exclusion

namespace Walk

variable {w : Walk} {here : Location} {listing : List Entry} {l : Location}

/-! ### What is kept is admitted -/

/-- What is left out at a location is told by the names that lead there. -/
theorem leavesOut_joinAll (written : w.root ≠ []) (names : ∀ m ∈ l, IsEntryName m) (n : Bytes) :
    w.leavesOut n (Path.joinAll w.root l) = w.exclusion.leavesOut n ([0x2F].intercalate l) := by
  rw [leavesOut, Path.seenFrom_joinAll written names]

/-- What a walk keeps does not depend on how its root is written. -/
theorem keeps_iff_admits (written : w.root ≠ []) (names : ∀ n ∈ l, IsEntryName n) :
    w.Keeps w.root l ↔ w.exclusion.Admits [] l := by
  -- both ask for each name on the way whether it is left out
  apply forall_congr'
  intro above
  apply forall_congr'
  intro name
  apply imp_congr_right
  intro isPrefix
  rw [leavesOut_joinAll written fun n hn => names n (isPrefix.subset hn)]
  rfl

/-- What a walk meets is what is there when all that it leaves out is cut
off. -/
theorem meets_iff_pruned {P : Bytes → Kind → Prop} (tree : IsTree listing)
    (written : w.root ≠ []) :
    w.Meets w.root listing P l ↔
      ∃ k, kindBelow? (w.exclusion.pruned [] listing) l = some k ∧
        P (Path.joinAll w.root l) k := by
  constructor
  · rintro ⟨kept, k, there, holds⟩
    have admitted := (keeps_iff_admits written (tree.isEntryName_of_kindBelow? there)).mp kept
    exact ⟨k, Exclusion.kindBelow?_pruned.mpr ⟨there, admitted⟩, holds⟩
  · rintro ⟨k, there, holds⟩
    obtain ⟨there, admitted⟩ := Exclusion.kindBelow?_pruned.mp there
    exact ⟨(keeps_iff_admits written (tree.isEntryName_of_kindBelow? there)).mpr admitted, k, there,
      holds⟩

theorem stops_iff_pruned (tree : IsTree listing) (written : w.root ≠ []) :
    w.Stops w.root listing l ↔
      kindBelow? (w.exclusion.pruned [] listing) l = some .directory ∧
        pathLimit ≤ (Path.joinAll w.root l).length := by
  rw [Stops, meets_iff_pruned tree written]
  constructor
  · rintro ⟨_, there, rfl, long⟩
    exact ⟨there, long⟩
  · rintro ⟨there, long⟩
    exact ⟨_, there, rfl, long⟩

/-- Where no link is left, the files that are left are found. -/
theorem finds_iff_pruned (tree : IsTree listing) (written : w.root ≠ [])
    (unlinked : IsUnlinked (w.exclusion.pruned [] listing)) :
    w.Finds w.root listing l ↔
      ∃ contents, kindBelow? (w.exclusion.pruned [] listing) l = some (.file contents) := by
  rw [Finds, meets_iff_pruned tree written]
  constructor
  · rintro ⟨k, there, holds⟩
    cases k with
    | file contents => exact ⟨contents, there⟩
    | link target => exact absurd there (unlinked l target)
    | directory => cases holds
  · rintro ⟨contents, there⟩
    exact ⟨_, there, rfl⟩

/-! ### Two projects that differ in what is left out -/

section Alike

variable {fs : FileSystem} {here' : Location} {listing' : List Entry}

theorem found_of_pruned (tree : IsTree w.fs.top) (tree' : IsTree fs.top)
    (root : w.fs.lookup .follow w.root = .ok (.directory here listing))
    (root' : fs.lookup .follow w.root = .ok (.directory here' listing'))
    (same : kindBelow? (w.exclusion.pruned [] listing) =
      kindBelow? (w.exclusion.pruned [] listing'))
    (unlinked : IsUnlinked (w.exclusion.pruned [] listing)) :
    ({ w with fs := fs } : Walk).found = w.found := by
  let w' : Walk := { w with fs := fs }
  obtain ⟨_, written, _⟩ := FileSystem.valid_of_lookup root
  have below := isTree_of_lookup tree root
  have below' : IsTree listing' := isTree_of_lookup (w := w') tree' root'
  have unlinked' : IsUnlinked (w.exclusion.pruned [] listing') := by
    intro l target
    rw [← same]
    exact unlinked l target
  apply (answers_found (w := w') tree' root').unique
  refine (answers_found tree root).congr rfl ?_ ?_
  · intro l
    rw [stops_iff_pruned below written, same]
    exact stops_iff_pruned (w := w') below' written
  · intro l
    rw [finds_iff_pruned below written unlinked, same]
    exact finds_iff_pruned (w := w') below' written unlinked'

/-- What is found is read alike: its path is the same, and so is what it
holds. -/
theorem readFile_of_pruned (tree : IsTree w.fs.top) (tree' : IsTree fs.top)
    (root : w.fs.lookup .follow w.root = .ok (.directory here listing))
    (root' : fs.lookup .follow w.root = .ok (.directory here' listing'))
    (same : kindBelow? (w.exclusion.pruned [] listing) =
      kindBelow? (w.exclusion.pruned [] listing'))
    (unlinked : IsUnlinked (w.exclusion.pruned [] listing)) {found : List Found}
    (h : w.found = .ok found) :
    ∀ file ∈ found, fs.readFile file.path = w.fs.readFile file.path := by
  obtain ⟨_, written, _⟩ := FileSystem.valid_of_lookup root
  have below := isTree_of_lookup tree root
  have below' : IsTree listing' := isTree_of_lookup (w := { w with fs := fs }) tree' root'
  have answers := answers_found tree root
  rw [h] at answers
  obtain ⟨_, ls, rfl, _, mem⟩ := answers
  intro file hfile
  obtain ⟨l, hl, rfl⟩ := List.mem_map.mp hfile
  obtain ⟨contents, left⟩ := (finds_iff_pruned below written unlinked).mp ((mem l).mp hl)
  obtain ⟨there, _⟩ := Exclusion.kindBelow?_pruned.mp left
  rw [same] at left
  obtain ⟨there', _⟩ := Exclusion.kindBelow?_pruned.mp left
  show fs.readFile (Path.joinAll w.root l) = w.fs.readFile (Path.joinAll w.root l)
  rw [FileSystem.readFile_joinAll_eq below root there,
    FileSystem.readFile_joinAll_eq below' root' there']

/-- **What is left out has no influence.**  Two projects below one root, in file
systems that may differ in anything else, make one audit if they have the same
locations with the same contents once every entry that is left out is cut off
with all that is below it, and no link is left then.  The audit is the same in
all: the findings in their order and the totals, or the failure. -/
theorem audit_of_pruned (tree : IsTree w.fs.top) (tree' : IsTree fs.top)
    (root : w.fs.lookup .follow w.root = .ok (.directory here listing))
    (root' : fs.lookup .follow w.root = .ok (.directory here' listing'))
    (same : kindBelow? (w.exclusion.pruned [] listing) =
      kindBelow? (w.exclusion.pruned [] listing'))
    (unlinked : IsUnlinked (w.exclusion.pruned [] listing)) :
    ({ w with fs := fs } : Walk).audit = w.audit := by
  have selected (wanted : Text → Bool) :
      ({ w with fs := fs } : Walk).select wanted = w.select wanted := by
    rw [select, select, found_of_pruned tree tree' root root' same unlinked]
  exact audit_congr rfl (selected _) (fun _ => selected _)
    fun _ h => readFile_of_pruned tree tree' root root' same unlinked h

end Alike

end Walk

/-- A project with a hidden directory, and with one that a pattern leaves out by
its path: it holds a link and a source. -/
def vendoredProject : Walk where
  fs := {
    top := [.directory (Utf8.encode "p".toList) [
      .directory (Utf8.encode ".git".toList) [.file (Utf8.encode "c.png".toList) []],
      .file (Utf8.encode "A.m".toList) (Utf8.encode "imageNamed:@\"logo\"".toList),
      .directory (Utf8.encode "lib".toList) [
        .file (Utf8.encode "z.png".toList) [],
        .directory (Utf8.encode "Pods".toList) [
          .link (Utf8.encode "l.png".toList) (Utf8.encode "../z.png".toList),
          .file (Utf8.encode "B.m".toList) (Utf8.encode "imageNamed:@\"ghost\"".toList)]]]]
    workingDirectory := [Utf8.encode "p".toList] }
  exclusion := ⟨["lib/Pods".toList.map .literal], true⟩
  root := Utf8.encode ".".toList

/-- A file where the directory was, something else that is hidden and other
entries beside the root make no difference: the image that is left has no
mention and no Retina file, and the one that is mentioned has no file. -/
theorem audit_of_vendoredProject :
    let fs : FileSystem := {
      top := [
        .file (Utf8.encode "q.png".toList) [],
        .directory (Utf8.encode "p".toList) [
          .directory (Utf8.encode "lib".toList) [
            .file (Utf8.encode "Pods".toList) [],
            .link (Utf8.encode ".l.png".toList) (Utf8.encode "z.png".toList),
            .file (Utf8.encode "z.png".toList) []],
          .file (Utf8.encode "A.m".toList) (Utf8.encode "imageNamed:@\"logo\"".toList)]]
      workingDirectory := [Utf8.encode "p".toList] }
    ({ vendoredProject with fs := fs } : Walk).audit = vendoredProject.audit ∧
      vendoredProject.audit.map Report.findings = .ok [
        .missing .references "lib/z.png".toList, .missing .retina "lib/z.png".toList,
        .missingFiles "logo".toList [Utf8.encode "A.m".toList]] := by
  intro fs
  have tree : IsTree vendoredProject.fs.top := by decide
  have tree' : IsTree fs.top := by decide
  -- the two entries that are left are listed the other way round
  have same := (Reordered.swap (.file (Utf8.encode "A.m".toList)
      (Utf8.encode "imageNamed:@\"logo\"".toList))
    (.directory (Utf8.encode "lib".toList) [.file (Utf8.encode "z.png".toList) []])
    []).kindBelow?_eq (by decide)
  exact ⟨Walk.audit_of_pruned tree tree' rfl rfl same (.of_census (by decide)), by rfl⟩

end AssetAudit

/-
AssetAudit/Proofs/Insertion.lean

A walk with one file more to go through.

An `Addition` is a walk below a directory, in a tree without links, together
with a tree that has one file more below the directory.  Without links a walk
finds the files that are kept, in the order of their locations.  So the new file
makes no difference if it is left out (`found_of_leftOut`), and is else found in
its place between the others (`found_of_kept`).  What can be read of the others
stays the same (`readFile_eq`).
-/
import AssetAudit.Proofs.Adding
import AssetAudit.Proofs.NameBytes
import AssetAudit.Proofs.Readable

namespace AssetAudit

/-- An ascending list with one element more is the list with that element put
in somewhere. -/
theorem exists_insertion {ls ls' : List Location} {l : Location} (sorted : ls.Pairwise (· < ·))
    (sorted' : ls'.Pairwise (· < ·)) (fresh : l ∉ ls) (mem : ∀ m, m ∈ ls' ↔ m ∈ ls ∨ m = l) :
    ∃ before after, ls = before ++ after ∧ ls' = before ++ l :: after := by
  obtain ⟨before, after, rfl⟩ := List.append_of_mem ((mem l).mpr (.inr rfl))
  refine ⟨before, after, ?_, rfl⟩
  have rest : (before ++ after).Pairwise (· < ·) :=
    sorted'.sublist ((List.sublist_cons_self l after).append_left before)
  have distinct : (before ++ l :: after).Nodup := sorted'.nodup
  have once : l ∉ before ++ after := (List.nodup_cons.mp (List.nodup_middle.mp distinct)).1
  apply sorted.eq_of_mem_iff rest
  intro m
  have both : m ∈ ls ∨ m = l ↔ m ∈ before ++ after ∨ m = l := by
    rw [← mem, List.perm_middle.mem_iff, List.mem_cons, or_comm]
  by_cases same : m = l
  · rw [same]
    exact iff_of_false fresh once
  · rwa [or_iff_left same, or_iff_left same] at both

/-- What one element of a list brings more is brought in addition to all that
the list brings. -/
theorem exists_flatMap_insertion {α β : Type} {f f' : α → List β} {l : List α} {x : α}
    {front back new : List β} (distinct : l.Nodup) (mem : x ∈ l)
    (others : ∀ y ∈ l, y ≠ x → f' y = f y) (less : f x = front ++ back)
    (more : f' x = front ++ new ++ back) :
    ∃ before after, l.flatMap f = before ++ after ∧ l.flatMap f' = before ++ new ++ after := by
  obtain ⟨pre, post, rfl⟩ := List.append_of_mem mem
  have once : x ∉ pre ++ post := (List.nodup_cons.mp (List.nodup_middle.mp distinct)).1
  have same : ∀ part : List α, (∀ y ∈ part, y ∈ pre ++ post) →
      part.flatMap f' = part.flatMap f := by
    intro part sub
    apply List.flatMap_congr
    intro y hy
    have there := sub y hy
    exact others y (List.perm_middle.mem_iff.mpr (List.mem_cons_of_mem x there))
      fun e => once (e ▸ there)
  refine ⟨pre.flatMap f ++ front, back ++ post.flatMap f, ?_, ?_⟩
  · simp only [List.flatMap_append, List.flatMap_cons, less, List.append_assoc]
  · simp only [List.flatMap_append, List.flatMap_cons, more, List.append_assoc,
      same pre fun y hy => List.mem_append_left post hy,
      same post fun y hy => List.mem_append_right pre hy]

/-- The entry is a link. -/
def Kind.isLink : Kind → Bool
  | .link _ => true
  | _ => false

/-- No location leads to a link. -/
def IsUnlinked (listing : List Entry) : Prop :=
  ∀ l target, kindBelow? listing l ≠ some (.link target)

theorem IsUnlinked.of_census {listing : List Entry}
    (h : ∀ place ∈ census listing, place.2.isLink = false) : IsUnlinked listing := by
  intro l target there
  cases h _ (mem_census_of_kindBelow? there)

theorem IsUnlinked.of_listingAt? {top listing : List Entry} {here : Location}
    (h : IsUnlinked top) (place : listingAt? top here = some listing) : IsUnlinked listing := by
  intro l target there
  have below : l ≠ [] := by
    rintro rfl
    cases there
  exact h _ target ((kindBelow?_append place below).trans there)

namespace Walk

/-- The walk over another tree. -/
def onTree (w : Walk) (top : List Entry) : Walk :=
  { w with fs := ⟨top, w.fs.workingDirectory⟩ }

/-- Without links the files that are kept are found. -/
theorem finds_iff_of_unlinked {w : Walk} {base : Bytes} {listing : List Entry}
    (unlinked : IsUnlinked listing) {l : Location} :
    w.Finds base listing l ↔ w.Keeps base l ∧ ∃ c, kindBelow? listing l = some (.file c) := by
  apply and_congr_right
  intro _
  constructor
  · rintro ⟨k, there, holds⟩
    cases k with
    | file c => exact ⟨c, there⟩
    | link target => exact absurd there (unlinked l target)
    | directory => cases holds
  · rintro ⟨c, there⟩
    exact ⟨_, there, rfl⟩

/-- A walk below a directory without links, and a tree that has one file more
below it. -/
structure Addition (w : Walk) where
  /-- The larger tree. -/
  top : List Entry
  /-- Where the root is. -/
  here : Location
  /-- What the root lists. -/
  listing : List Entry
  /-- What it lists in the larger tree. -/
  listing' : List Entry
  /-- Where the file is, below the root. -/
  place : Location
  contents : Bytes
  tree : IsTree w.fs.top
  tree' : IsTree top
  unlinked : IsUnlinked listing
  names : KeepsNames listing'
  root : w.fs.lookup .follow w.root = .ok (.directory here listing)
  root' : (w.onTree top).fs.lookup .follow w.root = .ok (.directory here listing')
  adds : AddsFile listing listing' place contents

namespace Addition

variable {w : Walk} (a : w.Addition)

/-- The walk over the larger tree. -/
def walk : Walk :=
  w.onTree a.top

/-- The path of the new file. -/
def path : Bytes :=
  Path.joinAll w.root a.place

theorem unlinked' : IsUnlinked a.listing' := by
  intro l target there
  exact a.unlinked l target ((a.adds.kept_iff (k := .link target) nofun).mp there)

theorem stops_iff {l : Location} :
    a.walk.Stops w.root a.listing' l ↔ w.Stops w.root a.listing l := by
  have directory : kindBelow? a.listing' l = some .directory ↔
      kindBelow? a.listing l = some .directory := a.adds.kept_iff nofun
  apply and_congr_right
  intro _
  constructor
  · rintro ⟨_, there, rfl, long⟩
    exact ⟨_, directory.mp there, rfl, long⟩
  · rintro ⟨_, there, rfl, long⟩
    exact ⟨_, directory.mpr there, rfl, long⟩

theorem finds_iff {l : Location} :
    a.walk.Finds w.root a.listing' l ↔
      w.Finds w.root a.listing l ∨ w.Keeps w.root a.place ∧ l = a.place := by
  rw [finds_iff_of_unlinked a.unlinked, finds_iff_of_unlinked a.unlinked', a.adds.file_iff]
  show w.Keeps w.root l ∧ _ ↔ _
  constructor
  · rintro ⟨kept, file | rfl⟩
    · exact .inl ⟨kept, file⟩
    · exact .inr ⟨kept, rfl⟩
  · rintro (⟨kept, file⟩ | ⟨kept, rfl⟩)
    · exact ⟨kept, .inl file⟩
    · exact ⟨kept, .inr rfl⟩

theorem answers' : a.walk.Answers w.root a.listing' a.walk.found :=
  answers_found (w := a.walk) a.tree' a.root'

/-- Where the one walk stops the other does. -/
theorem found_of_error {f : Failure} (h : w.found = .error f) : a.walk.found = .error f := by
  have answers := answers_found a.tree a.root
  rw [h] at answers
  obtain ⟨l, stop, least, rfl⟩ := answers
  apply a.answers'.unique
  refine ⟨l, a.stops_iff.mpr stop, ?_, rfl⟩
  intro m stop'
  exact least m (a.stops_iff.mp stop')

/-- A file that is left out makes no difference. -/
theorem found_of_leftOut (out : ¬w.Keeps w.root a.place) : a.walk.found = w.found := by
  apply a.answers'.unique
  refine (answers_found a.tree a.root).congr rfl (fun _ => a.stops_iff) ?_
  intro l
  rw [a.finds_iff, or_iff_left fun new => out new.1]

/-- A file that is kept is found in its place between the others. -/
theorem found_of_kept {found : List Found} (kept : w.Keeps w.root a.place)
    (h : w.found = .ok found) :
    ∃ before after, found = (before ++ after).map (foundOf w.root) ∧
      a.walk.found = .ok ((before ++ a.place :: after).map (foundOf w.root)) := by
  have answers := answers_found a.tree a.root
  have answers' := a.answers'
  rw [h] at answers
  obtain ⟨free, ls, rfl, sorted, mem⟩ := answers
  cases h' : a.walk.found with
  | error f =>
    rw [h'] at answers'
    obtain ⟨l, stop, _⟩ := answers'
    exact absurd (a.stops_iff.mp stop) (free l)
  | ok found' =>
    rw [h'] at answers'
    obtain ⟨_, ls', rfl, sorted', mem'⟩ := answers'
    have fresh : a.place ∉ ls := by
      rw [mem, finds_iff_of_unlinked a.unlinked]
      rintro ⟨_, _, there⟩
      rw [a.adds.fresh] at there
      cases there
    have more : ∀ l, l ∈ ls' ↔ l ∈ ls ∨ l = a.place := by
      intro l
      rw [mem', a.finds_iff, mem, and_iff_right kept]
    obtain ⟨before, after, rfl, rfl⟩ := exists_insertion sorted sorted' fresh more
    exact ⟨before, after, rfl, rfl⟩

/-- What was found before is read as before. -/
theorem readFile_eq {found : List Found} (h : w.found = .ok found) :
    ∀ file ∈ found, a.walk.fs.readFile file.path = w.fs.readFile file.path := by
  have answers := answers_found a.tree a.root
  rw [h] at answers
  obtain ⟨_, ls, rfl, _, mem⟩ := answers
  intro file hfile
  obtain ⟨l, hl, rfl⟩ := List.mem_map.mp hfile
  obtain ⟨_, c, there⟩ := (finds_iff_of_unlinked a.unlinked).mp ((mem l).mp hl)
  have names : KeepsNames a.listing := fun l k there => a.names l k (a.adds.kept there)
  show a.walk.fs.readFile (Path.joinAll w.root l) = w.fs.readFile (Path.joinAll w.root l)
  rw [FileSystem.readFile_joinAll (isTree_of_lookup a.tree a.root) names a.root there]
  exact FileSystem.readFile_joinAll (isTree_of_lookup (w := a.walk) a.tree' a.root') a.names a.root'
    (a.adds.kept there)

/-- The new file is read if its path is short enough. -/
theorem readFile_path :
    a.walk.fs.readFile a.path =
      if a.path.length < pathLimit then .ok a.contents else .error .nameTooLong :=
  FileSystem.readFile_joinAll (isTree_of_lookup (w := a.walk) a.tree' a.root') a.names a.root'
    a.adds.added

/-! ### The audit over the larger tree -/

/-- The name of the new file. -/
def name : Text :=
  Utf8.decodeLossy (a.place.getLast?.getD [])

theorem audit_of_leftOut (out : ¬w.Keeps w.root a.place) : a.walk.audit = w.audit := by
  have same (wanted : Text → Bool) : a.walk.select wanted = w.select wanted := by
    rw [select, select, a.found_of_leftOut out]
  exact audit_congr rfl (same _) (fun _ => same _) fun _ => a.readFile_eq

/-- A file that is not wanted is not selected. -/
theorem select_of_unwanted {wanted : Text → Bool} (unwanted : wanted a.name = false) :
    a.walk.select wanted = w.select wanted := by
  by_cases kept : w.Keeps w.root a.place
  · cases h : w.found with
    | error f => rw [select, select, h, a.found_of_error h]
    | ok found =>
      obtain ⟨before, after, rfl, h'⟩ := a.found_of_kept kept h
      have dropped : ¬wanted (Utf8.decodeLossy (foundOf w.root a.place).name) = true := by
        rw [Bool.not_eq_true]
        exact unwanted
      rw [select, select, h, h']
      show Except.ok (List.filter _ _) = Except.ok (List.filter _ _)
      simp only [List.map_append, List.map_cons, List.filter_append]
      rw [List.filter_cons_of_neg (p := fun f : Found => wanted (Utf8.decodeLossy f.name)) dropped]
  · rw [select, select, a.found_of_leftOut kept]

theorem audit_of_unwanted (image : isImageName a.name = false)
    (source : ∀ format : SourceFormat, format.isOf a.name = false) : a.walk.audit = w.audit :=
  audit_congr rfl (a.select_of_unwanted image) (fun format => a.select_of_unwanted (source format))
    fun _ => a.readFile_eq

variable {before after : List Location} {format : SourceFormat}

theorem mem_found_iff {file : Found} :
    file ∈ (before ++ a.place :: after).map (foundOf w.root) ↔
      file = foundOf w.root a.place ∨ file ∈ (before ++ after).map (foundOf w.root) := by
  rw [(List.perm_middle.map _).mem_iff, List.map_cons, List.mem_cons]

/-- With a source in it the larger tree can be read if the smaller one can, and
the source. -/
theorem readable_iff (named : format.isOf a.name = true)
    (h : w.found = .ok ((before ++ after).map (foundOf w.root))) :
    a.walk.Readable ((before ++ a.place :: after).map (foundOf w.root)) ↔
      w.Readable ((before ++ after).map (foundOf w.root)) ∧ a.path.length < pathLimit := by
  have own : (∃ contents, a.walk.fs.readFile a.path = .ok contents) ↔
      a.path.length < pathLimit := by
    rw [a.readFile_path]
    split
    · rename_i short
      exact iff_of_true ⟨_, rfl⟩ short
    · rename_i long
      exact iff_of_false nofun long
  constructor
  · intro readable
    refine ⟨?_, own.mp (readable _ (a.mem_found_iff.mpr (.inl rfl)) format named)⟩
    intro file hfile g hg
    rw [← a.readFile_eq h file hfile]
    exact readable file (a.mem_found_iff.mpr (.inr hfile)) g hg
  · rintro ⟨readable, short⟩ file hfile g hg
    rcases a.mem_found_iff.mp hfile with rfl | hfile
    · exact own.mpr short
    · rw [a.readFile_eq h file hfile]
      exact readable file hfile g hg

/-- With a source in it the larger tree is audited if the smaller one is, and
the path of the source is short enough. -/
theorem exists_audit_iff (kept : w.Keeps w.root a.place) (named : format.isOf a.name = true) :
    (∃ r, a.walk.audit = .ok r) ↔ (∃ r, w.audit = .ok r) ∧ a.path.length < pathLimit := by
  cases h : w.found with
  | error f =>
    rw [audit_of_error h, audit_of_error (a.found_of_error h)]
    exact iff_of_false nofun nofun
  | ok found =>
    obtain ⟨before, after, rfl, h'⟩ := a.found_of_kept kept h
    rw [Walk.exists_audit_iff h, Walk.exists_audit_iff h', a.readable_iff named h]

/-- The source is what makes an audit fail that would succeed without it. -/
theorem audit_of_long (kept : w.Keeps w.root a.place) (named : format.isOf a.name = true)
    (audited : ∃ r, w.audit = .ok r) (long : pathLimit ≤ a.path.length) :
    a.walk.audit = .error (.read a.path .nameTooLong) := by
  cases h : w.found with
  | error f =>
    rw [audit_of_error h] at audited
    obtain ⟨_, e⟩ := audited
    cases e
  | ok found =>
    obtain ⟨before, after, rfl, h'⟩ := a.found_of_kept kept h
    have readable := (Walk.exists_audit_iff h).mp audited
    cases failed : a.walk.audit with
    | ok r =>
      have short := ((a.exists_audit_iff kept named).mp ⟨r, failed⟩).2
      exact absurd short (Nat.not_lt_of_le long)
    | error f =>
      obtain ⟨file, mem, ⟨g, hg⟩, cause, unread, rfl⟩ := exists_unread_of_error h' failed
      rcases a.mem_found_iff.mp mem with rfl | mem
      · have refused : a.walk.fs.readFile a.path = .error .nameTooLong := by
          rw [a.readFile_path, if_neg (Nat.not_lt_of_le long)]
        rw [Except.error.inj (unread.symm.trans refused)]
        rfl
      · obtain ⟨_, read⟩ := readable file mem g hg
        rw [a.readFile_eq h file mem, read] at unread
        cases unread

/-! ### What the new file mentions -/

/-- What the new file mentions as a source of a format. -/
def mentions (format : SourceFormat) : List SourceMention :=
  (format.mentions (sourceText a.contents)).map
    fun name => ⟨name, [0x2F].intercalate a.place, format⟩

theorem sourcesOf_insert :
    sourcesOf ((before ++ a.place :: after).map (foundOf w.root)) format =
      sourcesOf (before.map (foundOf w.root)) format ++
        (if format.isOf a.name then [a.path] else []) ++
        sourcesOf (after.map (foundOf w.root)) format := by
  rw [List.map_append, List.map_cons, sourcesOf_append, sourcesOf_cons, List.append_assoc]
  rfl

section Collections

variable (c : w.Collection) (c' : a.walk.Collection)

/-- Sources that were there before mention the same. -/
theorem flatMap_mentionsOf_eq {found : List Found} (all : w.found = .ok found) {part : List Bytes}
    (sources : ∀ path ∈ part, path ∈ c.sources format ∧ path ∈ c'.sources format) :
    part.flatMap (c'.mentionsOf format) = part.flatMap (c.mentionsOf format) := by
  apply List.flatMap_congr
  intro path inPart
  obtain ⟨source, source'⟩ := sources path inPart
  obtain ⟨file, mem, _, rfl⟩ := mem_sourcesOf.mp (c.sources_eq all ▸ source)
  have read' := c'.contents_read format _ source'
  rw [a.readFile_eq all file mem, c.contents_read format _ source] at read'
  rw [Collection.mentionsOf, Collection.mentionsOf, Except.ok.inj read']
  rfl

/-- The new source mentions what it holds, as seen from the root. -/
theorem mentionsOf_path (source : a.path ∈ c'.sources format) :
    c'.mentionsOf format a.path = a.mentions format := by
  have read := c'.contents_read format _ source
  rw [a.readFile_path] at read
  split at read
  · have seen : Path.seenFrom a.walk.root a.path = [0x2F].intercalate a.place :=
      FileSystem.seenFrom_joinAll (isTree_of_lookup a.tree' a.root') a.root' a.adds.added
    rw [Collection.mentionsOf, seen, ← Except.ok.inj read]
    rfl
  · cases read

/-- The mentions of the new source are put in somewhere between the others. -/
theorem exists_mentions_insertion (named : format.isOf a.name = true)
    (all : w.found = .ok ((before ++ after).map (foundOf w.root)))
    (all' : a.walk.found = .ok ((before ++ a.place :: after).map (foundOf w.root))) :
    ∃ front back, c.mentions = front ++ back ∧
      c'.mentions = front ++ a.mentions format ++ back := by
  let own := sourcesOf (before.map (foundOf w.root))
  let rest := sourcesOf (after.map (foundOf w.root))
  have sources (g : SourceFormat) : c.sources g = own g ++ rest g := by
    rw [c.sources_eq all, List.map_append, sourcesOf_append]
  have sources' (g : SourceFormat) :
      c'.sources g = own g ++ (if g.isOf a.name then [a.path] else []) ++ rest g := by
    rw [c'.sources_eq all', a.sourcesOf_insert]
  have front (g : SourceFormat) :
      (own g).flatMap (c'.mentionsOf g) = (own g).flatMap (c.mentionsOf g) := by
    apply a.flatMap_mentionsOf_eq c c' all
    intro path mem
    rw [sources, sources', List.append_assoc]
    exact ⟨List.mem_append_left _ mem, List.mem_append_left _ mem⟩
  have back (g : SourceFormat) :
      (rest g).flatMap (c'.mentionsOf g) = (rest g).flatMap (c.mentionsOf g) := by
    apply a.flatMap_mentionsOf_eq c c' all
    intro path mem
    rw [sources, sources']
    exact ⟨List.mem_append_right _ mem, List.mem_append_right _ mem⟩
  have others : ∀ g ∈ SourceFormat.all, g ≠ format →
      (c'.sources g).flatMap (c'.mentionsOf g) = (c.sources g).flatMap (c.mentionsOf g) := by
    intro g _ other
    have unnamed : ¬g.isOf a.name = true := fun e => other (SourceFormat.eq_of_isOf e named)
    rw [sources, sources', if_neg unnamed, List.append_nil, List.flatMap_append,
      List.flatMap_append, front, back]
  have less : (c.sources format).flatMap (c.mentionsOf format) =
      (own format).flatMap (c.mentionsOf format) ++
        (rest format).flatMap (c.mentionsOf format) := by
    rw [sources, List.flatMap_append]
  have more : (c'.sources format).flatMap (c'.mentionsOf format) =
      (own format).flatMap (c.mentionsOf format) ++ a.mentions format ++
        (rest format).flatMap (c.mentionsOf format) := by
    have source : a.path ∈ c'.sources format := by
      rw [sources', if_pos named]
      exact List.mem_append_left _ (List.mem_append_right _ (List.mem_singleton_self _))
    rw [sources', if_pos named, List.flatMap_append, List.flatMap_append, List.flatMap_singleton,
      a.mentionsOf_path c' source, front, back]
  exact exists_flatMap_insertion (by decide) format.mem_all others less more

end Collections

/-- **What a new source changes in a survey** are the mentions. -/
theorem survey_insert {s s' : Survey} (kept : w.Keeps w.root a.place)
    (image : isImageName a.name = false) (named : format.isOf a.name = true)
    (h : w.survey = .ok s) (h' : a.walk.survey = .ok s') :
    s'.images = s.images ∧ ∃ front back, s.mentions = front ++ back ∧
      s'.mentions = front ++ a.mentions format ++ back := by
  obtain ⟨c, rfl⟩ := survey_eq_ok_iff.mp h
  obtain ⟨c', rfl⟩ := survey_eq_ok_iff.mp h'
  have images : a.walk.imageFiles = .ok c.images := by
    rw [← c.images_found, imageFiles, imageFiles, a.select_of_unwanted image]
    rfl
  refine ⟨Except.ok.inj (c'.images_found.symm.trans images), ?_⟩
  obtain ⟨_, selected, _⟩ := Except.map_eq_ok_iff.mp c.images_found
  obtain ⟨found, all, _⟩ := Except.map_eq_ok_iff.mp selected
  obtain ⟨before, after, rfl, all'⟩ := a.found_of_kept kept all
  exact a.exists_mentions_insertion c c' named all all'

end Addition

end Walk

end AssetAudit

/-
AssetAudit/Proofs/Descending.lean

Paths that go on behind a directory.

Where a path leads to a directory, a longer path first leads there, over the
links on its way, and then on from there with the links that are left
(`exists_follow_append`).  From there the names of a location go down step by
step, and a link is not met (`followSegments_of_kindBelow?`).  So the path of a
location below a root leads to what is there, as long as the system takes the
path and the names in it:

* `FileSystem.seenFrom_joinAll` — taking the root off such a path leaves the
  location;
* `FileSystem.readFile_joinAll` — a file is read by such a path;
* `FileSystem.readFile_of_isFile` — so is whatever counts as a file.
-/
import AssetAudit.Proofs.Lookup
import AssetAudit.Proofs.Stripping

namespace AssetAudit

/-! ### Names and paths that the system takes -/

/-- A name that the system can keep. -/
def IsStorable (n : Bytes) : Prop :=
  0 ∉ n ∧ n.length ≤ nameLimit

instance (n : Bytes) : Decidable (IsStorable n) :=
  inferInstanceAs (Decidable (_ ∧ _))

/-- All names below a listing can be kept. -/
def KeepsNames (listing : List Entry) : Prop :=
  ∀ l k, kindBelow? listing l = some k → ∀ n ∈ l, IsStorable n

/-- All paths below a listing are short enough, where the path of the listing
itself is `base`. -/
def KeepsShort (base : Bytes) (listing : List Entry) : Prop :=
  ∀ l k, kindBelow? listing l = some k → (Path.joinAll base l).length < pathLimit

theorem KeepsNames.of_listingAt? {top listing : List Entry} {here : Location}
    (h : KeepsNames top) (place : listingAt? top here = some listing) : KeepsNames listing := by
  intro l k there n hn
  have below : l ≠ [] := List.ne_nil_of_mem hn
  exact h _ k ((kindBelow?_append place below).trans there) n (List.mem_append_right here hn)

theorem KeepsNames.of_census {listing : List Entry}
    (h : ∀ place ∈ census listing, ∀ n ∈ place.1, IsStorable n) : KeepsNames listing :=
  fun _ _ there => h _ (mem_census_of_kindBelow? there)

theorem KeepsShort.of_census {base : Bytes} {listing : List Entry}
    (h : ∀ place ∈ census listing, (Path.joinAll base place.1).length < pathLimit) :
    KeepsShort base listing :=
  fun _ _ there => h _ (mem_census_of_kindBelow? there)

section Following

variable {top d : List Entry} {here there : Location} {segments tail : List Bytes} {links : Nat}

/-! ### Going on behind a directory -/

/-- What the first segment can do, whatever comes behind it and whatever becomes
of links: it leads to another location, or to a link that is replaced by its
target, or the path ends there, and not at a directory. -/
theorem followSegments_cons_cases (top : List Entry) (here : Location) (s : Bytes) :
    (∃ next, ∀ onLink rest, followSegments top .follow onLink here (s :: rest) =
      followSegments top .follow onLink next rest) ∨
    (∃ next target, ∀ onLink rest, followSegments top .follow onLink here (s :: rest) =
      onLink next (target ++ rest)) ∨
    ∃ outcome : List Bytes → Except LookupError Place,
      (∀ onLink rest, followSegments top .follow onLink here (s :: rest) = outcome rest) ∧
      ∀ rest p, outcome rest = .ok p →
        p = .vacant here s ∨ ∃ contents, p = .file (here ++ [s]) contents := by
  simp only [followSegments]
  cases move : moveAt top here s with
  | on next => exact .inl ⟨next, fun _ _ => rfl⟩
  | stop e =>
    refine .inr (.inr ⟨fun _ => .error e, fun _ _ => rfl, ?_⟩)
    intro rest q h
    cases h
  | last p e =>
    refine .inr (.inr ⟨fun rest => if rest.isEmpty then .ok p else .error e, fun _ _ => rfl, ?_⟩)
    intro rest q h
    dsimp only at h
    split at h
    · cases h
      exact eq_of_moveAt_last move
    · cases h
  | link target =>
    have replaced (rest : List Bytes) :
        (rest.isEmpty && LastLink.follow == .keep) = false := Bool.and_false _
    simp only [replaced]
    by_cases empty : target.isEmpty = true
    · simp only [if_pos empty]
      refine .inr (.inr ⟨fun _ => .error .notFound, fun _ _ => rfl, ?_⟩)
      intro rest q h
      cases h
    · simp only [if_neg empty]
      exact .inr (.inl ⟨_, Path.segments target, fun _ _ => rfl⟩)

/-- The same with the links that may still be followed: one is used up where a
link is replaced. -/
theorem follow_cons_cases (top : List Entry) (here : Location) (s : Bytes) :
    (∃ next, ∀ links rest, follow top .follow links here (s :: rest) =
      follow top .follow links next rest) ∨
    (∃ next target, ∀ rest, follow top .follow 0 here (s :: rest) = .error .tooManyLinks ∧
      ∀ links, follow top .follow (links + 1) here (s :: rest) =
        follow top .follow links next (target ++ rest)) ∨
    ∃ outcome : List Bytes → Except LookupError Place,
      (∀ links rest, follow top .follow links here (s :: rest) = outcome rest) ∧
      ∀ rest p, outcome rest = .ok p →
        p = .vacant here s ∨ ∃ contents, p = .file (here ++ [s]) contents := by
  rcases followSegments_cons_cases top here s with
    ⟨next, on⟩ | ⟨next, target, on⟩ | ⟨outcome, on, ends⟩
  · refine .inl ⟨next, fun links rest => ?_⟩
    cases links <;> exact on _ rest
  · exact .inr (.inl ⟨next, target, fun rest => ⟨on _ rest, fun _ => on _ rest⟩⟩)
  · refine .inr (.inr ⟨outcome, fun links rest => ?_, ends⟩)
    cases links <;> exact on _ rest

/-- Segments that say nothing lead nowhere else, however many links may be
followed. -/
theorem follow_still (still : ∀ s ∈ tail, (s.isEmpty || Path.isDot s) = true) :
    follow top .follow links here tail =
      match listingAt? top here with
      | some listing => .ok (.directory here listing)
      | none => .error .notFound := by
  cases links <;> exact (followSegments_still still).trans rfl

/-- **Where a path leads to a directory, a longer one goes on from there**, with
as many links as the way to the directory leaves. -/
theorem exists_follow_append (still : ∀ s ∈ tail, (s.isEmpty || Path.isDot s) = true)
    (h : follow top .follow links here (segments ++ tail) = .ok (.directory there d)) :
    ∃ passed ≤ links, ∀ more rest, follow top .follow (passed + more) here (segments ++ rest) =
      follow top .follow more there rest := by
  -- a link uses up one and puts its target in front, so this is for all segments
  induction links using Nat.strongRecOn generalizing here segments with
  | ind links later =>
    induction segments generalizing here with
    | nil =>
      rw [List.nil_append, follow_still still] at h
      split at h
      · cases h
        exact ⟨0, Nat.zero_le _, fun more rest => by rw [Nat.zero_add, List.nil_append]⟩
      · cases h
    | cons s segments ih =>
      simp only [List.cons_append] at h ⊢
      rcases follow_cons_cases top here s with ⟨next, on⟩ | ⟨next, target, on⟩ | ⟨_, on, ends⟩
      · simp only [on] at h ⊢
        exact ih h
      · cases links with
        | zero =>
          rw [(on _).1] at h
          cases h
        | succ links =>
          rw [(on _).2, ← List.append_assoc] at h
          obtain ⟨passed, le, behind⟩ := later links (Nat.lt_succ_self _) h
          refine ⟨passed + 1, Nat.succ_le_succ le, fun more rest => ?_⟩
          rw [Nat.add_right_comm, (on _).2, ← List.append_assoc, behind]
      · rw [on] at h
        rcases ends _ _ h with e | ⟨_, e⟩ <;> cases e

/-- Links are all replaced where the last one is. -/
theorem ne_link_of_follow {l : Location} {target : Bytes} :
    follow top .follow links here segments ≠ .ok (.link l target) := by
  induction links using Nat.strongRecOn generalizing here segments with
  | ind links later =>
    induction segments generalizing here with
    | nil =>
      rw [follow_still (by simp)]
      split <;> exact nofun
    | cons s segments ih =>
      rcases follow_cons_cases top here s with ⟨next, on⟩ | ⟨next, replaced, on⟩ | ⟨_, on, ends⟩
      · rw [on]
        exact ih
      · cases links with
        | zero =>
          rw [(on _).1]
          exact nofun
        | succ links =>
          rw [(on _).2]
          exact later links (Nat.lt_succ_self _)
      · intro h
        rw [on] at h
        rcases ends _ _ h with e | ⟨_, e⟩ <;> cases e

end Following

/-! ### Going down by names -/

/-- A name is no segment of another meaning. -/
theorem IsEntryName.unlike {n : Bytes} (h : IsEntryName n) :
    (n.isEmpty = false ∧ Path.isDot n = false) ∧ Path.isDotDot n = false := by
  have proper := h.1
  simp only [Path.isProper, Bool.and_eq_true, Bool.not_eq_true'] at proper
  exact proper

section Names

variable {top d inner : List Entry} {last : LastLink} {here l : Location} {n m contents : Bytes}
  {onLink : Location → List Bytes → Except LookupError Place}

/-- A name that is too long is not looked for. -/
theorem followSegments_tooLong (name : IsEntryName n) (long : ¬n.length ≤ nameLimit)
    (rest : List Bytes) :
    followSegments top last onLink here (n :: rest) = .error .nameTooLong := by
  obtain ⟨⟨written, dot⟩, up⟩ := name.unlike
  rw [followSegments, moveAt, written, dot, up, if_pos (Nat.lt_of_not_le long)]
  rfl

/-- A name that is short enough leads to what the directory has under it. -/
theorem moveAt_of_name (name : IsEntryName n) (short : n.length ≤ nameLimit)
    (place : listingAt? top here = some d) :
    moveAt top here n = moveTo here n (some (entryOf? d n)) := by
  obtain ⟨⟨written, dot⟩, up⟩ := name.unlike
  rw [moveAt, written, dot, up, if_neg (Nat.not_lt_of_le short), place]
  rfl

/-- A name of a directory leads into it. -/
theorem followSegments_directory (name : IsEntryName n) (short : n.length ≤ nameLimit)
    (place : listingAt? top here = some d) (entry : entryOf? d n = some (.directory m inner))
    (rest : List Bytes) :
    followSegments top last onLink here (n :: rest) =
      followSegments top last onLink (here ++ [n]) rest := by
  rw [followSegments, moveAt_of_name name short place, entry]
  rfl

/-- A name of a file leads to it. -/
theorem followSegments_file (name : IsEntryName n) (short : n.length ≤ nameLimit)
    (place : listingAt? top here = some d) (entry : entryOf? d n = some (.file m contents)) :
    followSegments top last onLink here [n] = .ok (.file (here ++ [n]) contents) := by
  rw [followSegments, moveAt_of_name name short place, entry]
  rfl

/-- The names of a location lead down to a file step by step, if none of them is
too long. -/
theorem followSegments_of_kindBelow? (names : ∀ n ∈ l, IsEntryName n)
    (place : listingAt? top here = some d) (file : kindBelow? d l = some (.file contents)) :
    followSegments top last onLink here l =
      if ∀ n ∈ l, n.length ≤ nameLimit then .ok (.file (here ++ l) contents)
      else .error .nameTooLong := by
  induction l generalizing here d with
  | nil => cases file
  | cons n l ih =>
    obtain ⟨name, names⟩ := List.forall_mem_cons.mp names
    simp only [List.forall_mem_cons]
    by_cases short : n.length ≤ nameLimit
    · simp only [short, true_and]
      cases l with
      | nil =>
        obtain ⟨e, entry, kind⟩ := Option.map_eq_some_iff.mp file
        cases e with
        | file m _ =>
          cases kind
          rw [followSegments_file name short place entry, if_pos (by simp)]
        | link _ _ => cases kind
        | directory _ _ => cases kind
      | cons n' l =>
        rw [kindBelow?] at file
        split at file
        · rename_i m inner entry
          have deeper : listingAt? top (here ++ [n]) = some inner := by
            rw [listingAt?_append, place, Option.bind_some, listingAt?, entry]
            rfl
          rw [followSegments_directory name short place entry, ih names deeper file,
            List.append_assoc, List.singleton_append]
        · cases file
    · rw [if_neg fun all => short all.1, followSegments_tooLong name short]

theorem follow_of_kindBelow? {links : Nat} (names : ∀ n ∈ l, IsEntryName n)
    (place : listingAt? top here = some d) (file : kindBelow? d l = some (.file contents)) :
    follow top last links here l =
      if ∀ n ∈ l, n.length ≤ nameLimit then .ok (.file (here ++ l) contents)
      else .error .nameTooLong := by
  cases links <;> exact followSegments_of_kindBelow? names place file

end Names

namespace FileSystem

variable {fs : FileSystem} {root path contents : Bytes} {here : Location} {d : List Entry}

/-! ### Reading by joined paths -/

theorem zero_not_mem_joinAll {l : Location} (h : 0 ∉ root) (names : ∀ n ∈ l, 0 ∉ n) :
    0 ∉ Path.joinAll root l := by
  induction l generalizing root with
  | nil => exact h
  | cons n l ih =>
    obtain ⟨name, names⟩ := List.forall_mem_cons.mp names
    refine ih ?_ names
    have free : 0 ∉ Path.front root := by
      rw [Path.front]
      split
      · exact h
      · simpa using h
    rw [Path.join_eq, List.mem_append, not_or]
    exact ⟨free, name⟩

/-- A path starts where the path that it is joined to does. -/
theorem isAbsolute_joinAll (written : root ≠ []) (l : Location) :
    isAbsolute (Path.joinAll root l) = isAbsolute root := by
  obtain ⟨b, rest, rfl⟩ := List.exists_cons_of_ne_nil written
  obtain ⟨more, joined⟩ := Path.exists_joinAll_eq_append (b :: rest) l
  rw [joined]
  rfl

/-- The root taken off the path of what is there leaves the names that lead
there. -/
theorem seenFrom_joinAll {l : Location} {k : Kind} (tree : IsTree d)
    (place : fs.lookup .follow root = .ok (.directory here d)) (there : kindBelow? d l = some k) :
    Path.seenFrom root (Path.joinAll root l) = [0x2F].intercalate l := by
  obtain ⟨_, written, _⟩ := valid_of_lookup place
  exact Path.seenFrom_joinAll written (tree.isEntryName_of_kindBelow? there)

/-- A path below a directory first leads to the directory, over the links on its
way, and then on from there. -/
theorem exists_follow_joinAll {links : Nat} (written : root ≠ [])
    (h : follow fs.top .follow links (if isAbsolute root then [] else fs.workingDirectory)
      (Path.segments root) = .ok (.directory here d)) :
    ∃ passed ≤ links,
      follow fs.top .follow passed (if isAbsolute root then [] else fs.workingDirectory)
        (Path.segments root) = .ok (.directory here d) ∧
      ∀ more l, l ≠ [] → (∀ n ∈ l, IsEntryName n) →
        follow fs.top .follow (passed + more)
          (if isAbsolute (Path.joinAll root l) then [] else fs.workingDirectory)
          (Path.segments (Path.joinAll root l)) = follow fs.top .follow more here l := by
  obtain ⟨segs, _, own, behind⟩ := Path.exists_segments_joinAll written
  have tail : ∃ tail, (∀ s ∈ tail, (List.isEmpty s || Path.isDot s) = true) ∧
      Path.segments root = segs ++ tail := by
    rcases own with own | own
    · exact ⟨[], by simp, by rw [own, List.append_nil]⟩
    · exact ⟨[[]], by simp, own⟩
  obtain ⟨tail, still, own⟩ := tail
  rw [own] at h ⊢
  obtain ⟨passed, le, on⟩ := exists_follow_append still h
  refine ⟨passed, le, ?_, ?_⟩
  · have alone := on 0 tail
    rwa [follow_still still, listingAt?_of_follow h] at alone
  · intro more l below names
    rw [isAbsolute_joinAll written, behind l below names, on]

theorem joinAll_ne_nil (written : root ≠ []) (l : Location) : Path.joinAll root l ≠ [] := by
  obtain ⟨_, joined⟩ := Path.exists_joinAll_eq_append root l
  rw [joined]
  exact List.append_ne_nil_of_left_ne_nil written _

/-- What reading by the path of a file below a directory comes to: the contents
of the file, if the system takes the path and the names in it. -/
theorem readFile_joinAll_eq {l : Location} (tree : IsTree d)
    (place : fs.lookup .follow root = .ok (.directory here d))
    (file : kindBelow? d l = some (.file contents)) :
    fs.readFile (Path.joinAll root l) =
      if (Path.joinAll root l).contains 0 then .error .zeroByte
      else if pathLimit ≤ (Path.joinAll root l).length then .error .nameTooLong
      else if ∀ n ∈ l, n.length ≤ nameLimit then .ok contents else .error .nameTooLong := by
  have below : l ≠ [] := by
    rintro rfl
    cases file
  have names := tree.isEntryName_of_kindBelow? file
  obtain ⟨_, written, _⟩ := valid_of_lookup place
  have some : (Path.joinAll root l).isEmpty = false :=
    List.isEmpty_eq_false_iff.mpr (joinAll_ne_nil written l)
  obtain ⟨passed, le, _, on⟩ := exists_follow_joinAll written (follow_of_lookup place)
  obtain ⟨left, all⟩ := Nat.exists_eq_add_of_le le
  have followed := on left l below names
  rw [← all, follow_of_kindBelow? names (listingAt?_of_lookup place) file] at followed
  rw [readFile, lookup, locate, followed, some, if_neg Bool.false_ne_true]
  by_cases zero : (Path.joinAll root l).contains 0 = true
  · rw [if_pos zero, if_pos zero]
  rw [if_neg zero, if_neg zero]
  by_cases long : pathLimit ≤ (Path.joinAll root l).length
  · rw [if_pos long, if_pos long]
  rw [if_neg long, if_neg long]
  by_cases short : ∀ n ∈ l, n.length ≤ nameLimit
  · rw [if_pos short, if_pos short]
  · rw [if_neg short, if_neg short]

/-- The path of a file below a directory leads to the file, if it is short
enough. -/
theorem readFile_joinAll {l : Location} (tree : IsTree d) (kept : KeepsNames d)
    (place : fs.lookup .follow root = .ok (.directory here d))
    (file : kindBelow? d l = some (.file contents)) :
    fs.readFile (Path.joinAll root l) =
      if (Path.joinAll root l).length < pathLimit then .ok contents else .error .nameTooLong := by
  have storable := kept l _ file
  obtain ⟨valid, _, _⟩ := valid_of_lookup place
  have valid : (Path.joinAll root l).contains 0 = false := by
    rw [List.contains_eq_mem, decide_eq_false_iff_not] at valid ⊢
    exact zero_not_mem_joinAll valid fun n hn => (storable n hn).1
  rw [readFile_joinAll_eq tree place file, valid, if_neg Bool.false_ne_true,
    if_pos fun n hn => (storable n hn).2]
  by_cases short : (Path.joinAll root l).length < pathLimit
  · rw [if_pos short, if_neg (Nat.not_le_of_lt short)]
  · rw [if_neg short, if_pos (Nat.le_of_not_lt short)]

/-- Whatever counts as a file can be read. -/
theorem readFile_of_isFile (h : fs.isFile path = true) :
    ∃ contents, fs.readFile path = .ok contents := by
  rw [isFile] at h
  split at h
  · rename_i contents place
    exact ⟨contents, by rw [readFile, place]⟩
  · cases h

/-- What a path leads to when links are followed is a directory or a file. -/
theorem directory_or_file_of_lookup {p : Place} (h : fs.lookup .follow path = .ok p) :
    (∃ here d, p = .directory here d) ∨ ∃ l contents, p = .file l contents := by
  cases p with
  | directory here d => exact .inl ⟨here, d, rfl⟩
  | file l contents => exact .inr ⟨l, contents, rfl⟩
  | link l target => exact absurd (follow_of_lookup h) ne_link_of_follow
  | vacant parent name =>
    rw [lookup] at h
    split at h
    · cases h
    · rename_i occupied
      exact absurd h (occupied parent name)

end FileSystem

end AssetAudit

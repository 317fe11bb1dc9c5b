/-
AssetAudit/Proofs/Traversal.lean

What a walk below a directory comes to.

The walk is told again without going through anything, by the locations below
the directory:

* `Keeps base l` — neither the entry at `l` nor any above it is left out;
* `Meets base listing P l` — besides, something is there, and it is as `P`
  says;
* `Finds` — it is a file, or a link that leads to one;
* `Stops` — it is a directory with a path that is too long;
* `Answers base listing r` — `r` is the result that this makes: all that is
  found, in the order of the locations, or the first place to stop at.

`answers_gather` says that the walk comes to this result.  The proof goes up
from single entries: an entry in front of a listing adds its result to that of
the rest (`Answers.cons`), and a directory answers as what it lists
(`Answers.directory`).
-/
import AssetAudit.Proofs.Joining
import AssetAudit.Proofs.Ordering
import Mathlib.Data.List.Sort

namespace AssetAudit.Walk

variable {w : Walk} {base : Bytes} {listing rest : List Entry} {e : Entry} {n : Bytes}

/-! ### Locations that are kept -/

/-- Neither the entry at the location nor any above it is left out. -/
def Keeps (w : Walk) (base : Bytes) (l : Location) : Prop :=
  ∀ above name, above ++ [name] <+: l →
    w.leavesOut name (Path.joinAll base (above ++ [name])) = false

theorem keeps_nil : w.Keeps base [] := by
  intro above name isPrefix
  exact absurd (List.prefix_nil.mp isPrefix) (List.append_ne_nil_of_right_ne_nil _ nofun)

/-- A location is kept if its first entry is, and what follows below that. -/
theorem keeps_cons {l : Location} :
    w.Keeps base (n :: l) ↔
      w.leavesOut n (Path.join base n) = false ∧ w.Keeps (Path.join base n) l := by
  constructor
  · intro h
    refine ⟨h [] n (List.cons_prefix_cons.mpr ⟨rfl, List.nil_prefix⟩), ?_⟩
    intro above name isPrefix
    exact h (n :: above) name (List.cons_prefix_cons.mpr ⟨rfl, isPrefix⟩)
  · rintro ⟨first, later⟩ above name isPrefix
    cases above with
    | nil =>
      obtain ⟨rfl, _⟩ := List.cons_prefix_cons.mp isPrefix
      exact first
    | cons a above =>
      obtain ⟨rfl, inside⟩ := List.cons_prefix_cons.mp isPrefix
      exact later above name inside

/-! ### What is there -/

/-- The location is kept and leads to something of which `P` holds, given its
path. -/
def Meets (w : Walk) (base : Bytes) (listing : List Entry) (P : Bytes → Kind → Prop)
    (l : Location) : Prop :=
  w.Keeps base l ∧ ∃ k, kindBelow? listing l = some k ∧ P (Path.joinAll base l) k

section Meets

variable {P Q : Bytes → Kind → Prop} {l m : Location}

theorem not_meets_nil : ¬w.Meets base listing P [] := by
  rintro ⟨_, k, there, _⟩
  cases there

theorem not_meets_of_empty : ¬w.Meets base [] P l := by
  rintro ⟨_, k, there, _⟩
  rw [kindBelow?_nil_left] at there
  cases there

theorem meets_cons (fresh : e.name ∉ namesIn rest) :
    w.Meets base (e :: rest) P l ↔ w.Meets base [e] P l ∨ w.Meets base rest P l := by
  constructor
  · rintro ⟨kept, k, there, holds⟩
    rcases (kindBelow?_cons_eq_some_iff fresh).mp there with first | later
    · exact .inl ⟨kept, k, first, holds⟩
    · exact .inr ⟨kept, k, later, holds⟩
  · rintro (⟨kept, k, there, holds⟩ | ⟨kept, k, there, holds⟩)
    · exact ⟨kept, k, (kindBelow?_cons_eq_some_iff fresh).mpr (.inl there), holds⟩
    · exact ⟨kept, k, (kindBelow?_cons_eq_some_iff fresh).mpr (.inr there), holds⟩

/-- A file or a link is at its name, and nothing else is. -/
theorem meets_leaf (leaf : e.kind ≠ .directory) :
    w.Meets base [e] P l ↔ l = [e.name] ∧
      w.leavesOut e.name (Path.join base e.name) = false ∧ P (Path.join base e.name) e.kind := by
  constructor
  · rintro ⟨kept, k, there, holds⟩
    match l with
    | [] => cases there
    | [n] =>
      have name : n = e.name := List.mem_singleton.mp (head_mem_of_kindBelow? there)
      subst name
      rw [kindBelow?_singleton] at there
      cases there
      exact ⟨rfl, (keeps_cons.mp kept).1, holds⟩
    | n :: m :: l =>
      rw [kindBelow?_leaf leaf] at there
      cases there
  · rintro ⟨rfl, kept, holds⟩
    exact ⟨keeps_cons.mpr ⟨kept, keeps_nil⟩, e.kind, kindBelow?_singleton e, holds⟩

/-- What is at a directory or below it. -/
theorem meets_directory {inner : List Entry} :
    w.Meets base [.directory n inner] P l ↔
      ∃ below, l = n :: below ∧ w.leavesOut n (Path.join base n) = false ∧
        (below = [] ∧ P (Path.join base n) .directory ∨
          w.Meets (Path.join base n) inner P below) := by
  constructor
  · rintro ⟨kept, k, there, holds⟩
    match l with
    | [] => cases there
    | m :: below =>
      have name : m = n := List.mem_singleton.mp (head_mem_of_kindBelow? there)
      subst name
      obtain ⟨here, kept⟩ := keeps_cons.mp kept
      refine ⟨below, rfl, here, ?_⟩
      cases below with
      | nil =>
        have self : kindBelow? [.directory m inner] [m] = some .directory := kindBelow?_singleton _
        rw [self] at there
        cases there
        exact .inl ⟨rfl, holds⟩
      | cons a below =>
        rw [kindBelow?_directory m inner (List.cons_ne_nil a below)] at there
        exact .inr ⟨kept, k, there, holds⟩
  · rintro ⟨below, rfl, here, ⟨rfl, holds⟩ | ⟨kept, k, there, holds⟩⟩
    · exact ⟨keeps_cons.mpr ⟨here, keeps_nil⟩, .directory, kindBelow?_singleton _, holds⟩
    · have more : below ≠ [] := by
        rintro rfl
        cases there
      refine ⟨keeps_cons.mpr ⟨here, kept⟩, k, ?_, holds⟩
      rw [kindBelow?_directory n inner more]
      exact there

/-- Where `P` is not about the directory itself, it is about what is below. -/
theorem meets_directory_iff_below {inner : List Entry}
    (kept : w.leavesOut n (Path.join base n) = false) (h : ¬P (Path.join base n) .directory) :
    w.Meets base [.directory n inner] P l ↔
      ∃ below, l = n :: below ∧ w.Meets (Path.join base n) inner P below := by
  rw [meets_directory]
  apply exists_congr
  intro below
  apply and_congr_right
  intro _
  constructor
  · rintro ⟨_, ⟨_, here⟩ | inside⟩
    · exact absurd here h
    · exact inside
  · intro inside
    exact ⟨kept, .inr inside⟩

/-- What is at one entry comes before what is at those behind it. -/
theorem lt_of_meets (ascending : ∀ d ∈ rest, e.name < d.name) (hl : w.Meets base [e] P l)
    (hm : w.Meets base rest Q m) : l < m := by
  obtain ⟨_, _, first, _⟩ := hl
  obtain ⟨_, _, later, _⟩ := hm
  match l, m with
  | [], _ => cases first
  | _, [] => cases later
  | a :: l, b :: m =>
    obtain rfl := List.mem_singleton.mp (head_mem_of_kindBelow? first)
    obtain ⟨d, hd, rfl⟩ := List.mem_map.mp (head_mem_of_kindBelow? later)
    exact List.cons_lt_cons_iff.mpr (.inl (ascending d hd))

end Meets

/-! ### What a walk finds, and where it stops -/

/-- An entry at the path is a file, or a link from which the path leads to
one. -/
def holdsFile (w : Walk) (path : Bytes) : Kind → Bool
  | .file _ => true
  | .link _ => w.fs.isFile path
  | .directory => false

/-- At the location is a file to be found. -/
def Finds (w : Walk) (base : Bytes) (listing : List Entry) : Location → Prop :=
  w.Meets base listing fun path k => w.holdsFile path k = true

/-- At the location is a directory to be gone into, with a path that is too
long. -/
def Stops (w : Walk) (base : Bytes) (listing : List Entry) : Location → Prop :=
  w.Meets base listing fun path k => k = .directory ∧ pathLimit ≤ path.length

/-- The file at a location below the directory at `base`. -/
def foundOf (base : Bytes) (l : Location) : Found :=
  ⟨Path.joinAll base l, l.getLast?.getD []⟩

theorem foundOf_concat_name (base : Bytes) (above : Location) (n : Bytes) :
    (foundOf base (above ++ [n])).name = n := by
  rw [foundOf, List.getLast?_concat, Option.getD_some]

theorem foundOf_cons {l : Location} (h : l ≠ []) :
    foundOf base (n :: l) = foundOf (Path.join base n) l := by
  rw [foundOf, foundOf, List.getLast?_cons_of_ne_nil h, Path.joinAll_cons]

/-- The result of a walk below a directory: all files to be found, in the order
of their locations, unless there is a place to stop at; then a failure at the
first one. -/
def Answers (w : Walk) (base : Bytes) (listing : List Entry) :
    Except Failure (List Found) → Prop
  | .ok fs => (∀ l, ¬w.Stops base listing l) ∧
      ∃ ls : List Location, fs = ls.map (foundOf base) ∧ ls.Pairwise (· < ·) ∧
        ∀ l, l ∈ ls ↔ w.Finds base listing l
  | .error f => ∃ l, w.Stops base listing l ∧ (∀ m, w.Stops base listing m → l ≤ m) ∧
      f = .walk w.root (Path.joinAll base l) .nameTooLong

namespace Answers

/-- The result is made by where the walk stops and what it finds. -/
theorem congr {w' : Walk} {other : List Entry} {r : Except Failure (List Found)}
    (h : w.Answers base listing r) (root : w'.root = w.root)
    (stops : ∀ l, w'.Stops base other l ↔ w.Stops base listing l)
    (finds : ∀ l, w'.Finds base other l ↔ w.Finds base listing l) : w'.Answers base other r := by
  cases r with
  | ok fs =>
    simp only [Answers, stops, finds]
    exact h
  | error f =>
    simp only [Answers, stops, root]
    exact h

/-- That is made by what is at the locations. -/
theorem of_same {other : List Entry} {r : Except Failure (List Found)}
    (h : w.Answers base listing r) (same : kindBelow? listing = kindBelow? other) :
    w.Answers base other r := by
  refine h.congr rfl ?_ ?_
  · intro l
    simp only [Stops, Meets, same]
  · intro l
    simp only [Finds, Meets, same]

/-- Where nothing is kept, nothing is found. -/
theorem of_nothing (h : ∀ P l, ¬w.Meets base listing P l) : w.Answers base listing (.ok []) := by
  refine ⟨h _, [], rfl, .nil, ?_⟩
  intro l
  constructor
  · intro hl
    exact absurd hl List.not_mem_nil
  · intro hl
    exact absurd hl (h _ l)

/-- The result of an entry goes before that of the entries behind it. -/
theorem cons {r r' : Except Failure (List Found)} (ascending : ∀ d ∈ rest, e.name < d.name)
    (first : w.Answers base [e] r) (later : w.Answers base rest r') :
    w.Answers base (e :: rest) (r.bind fun fs => r'.map (fs ++ ·)) := by
  have fresh : e.name ∉ namesIn rest := by
    intro mem
    obtain ⟨d, hd, same⟩ := List.mem_map.mp mem
    exact List.lt_irrefl _ (same ▸ ascending d hd)
  cases r with
  | error f =>
    -- what is behind the entry cannot come before the place it stops at
    obtain ⟨l, stop, least, rfl⟩ := first
    refine ⟨l, (meets_cons fresh).mpr (.inl stop), ?_, rfl⟩
    intro m hm
    rcases (meets_cons fresh).mp hm with hm | hm
    · exact least m hm
    · exact List.le_of_lt (lt_of_meets ascending stop hm)
  | ok fs =>
    obtain ⟨free, ls, rfl, sorted, mem⟩ := first
    cases r' with
    | error f =>
      obtain ⟨l, stop, least, rfl⟩ := later
      refine ⟨l, (meets_cons fresh).mpr (.inr stop), ?_, rfl⟩
      intro m hm
      apply least
      exact ((meets_cons fresh).mp hm).resolve_left (free m)
    | ok fs' =>
      obtain ⟨free', ls', rfl, sorted', mem'⟩ := later
      refine ⟨?_, ls ++ ls', List.map_append.symm, ?_, ?_⟩
      · intro l hl
        rcases (meets_cons fresh).mp hl with hl | hl
        · exact free l hl
        · exact free' l hl
      · refine List.pairwise_append.mpr ⟨sorted, sorted', ?_⟩
        intro l hl m hm
        exact lt_of_meets ascending ((mem l).mp hl) ((mem' m).mp hm)
      · intro l
        rw [List.mem_append, mem, mem']
        exact (meets_cons fresh).symm

theorem leaf (h : e.kind ≠ .directory) :
    w.Answers base [e] (.ok
      (if w.leavesOut e.name (Path.join base e.name) || !w.holdsFile (Path.join base e.name) e.kind
        then [] else [foundOf base [e.name]])) := by
  have free : ∀ l, ¬w.Stops base [e] l := by
    intro l stop
    obtain ⟨_, _, directory, _⟩ := (meets_leaf h).mp stop
    exact h directory
  refine ⟨free, ?_⟩
  split
  · rename_i out
    refine ⟨[], rfl, .nil, ?_⟩
    intro l
    constructor
    · intro hl
      exact absurd hl List.not_mem_nil
    · intro hl
      obtain ⟨_, kept, file⟩ := (meets_leaf h).mp hl
      rw [kept, file] at out
      cases out
  · rename_i found
    rw [Bool.or_eq_true, not_or, Bool.not_eq_true, Bool.not_eq_true', Bool.not_eq_false] at found
    refine ⟨[[e.name]], rfl, List.pairwise_singleton _ _, ?_⟩
    intro l
    rw [List.mem_singleton]
    constructor
    · intro hl
      exact (meets_leaf h).mpr ⟨hl, found⟩
    · intro hl
      exact ((meets_leaf h).mp hl).1

theorem leftOut {inner : List Entry} (h : w.leavesOut n (Path.join base n) = true) :
    w.Answers base [.directory n inner] (.ok []) := by
  apply of_nothing
  intro P l hl
  obtain ⟨_, _, kept, _⟩ := meets_directory.mp hl
  rw [h] at kept
  cases kept

theorem tooLong {inner : List Entry} (h : w.leavesOut n (Path.join base n) = false)
    (long : pathLimit ≤ (Path.join base n).length) :
    w.Answers base [.directory n inner]
      (.error (.walk w.root (Path.join base n) .nameTooLong)) := by
  have stop : w.Stops base [.directory n inner] [n] :=
    meets_directory.mpr ⟨[], rfl, h, .inl ⟨rfl, rfl, long⟩⟩
  refine ⟨[n], stop, ?_, rfl⟩
  intro m hm
  obtain ⟨below, rfl, _⟩ := meets_directory.mp hm
  exact List.cons_le_cons_iff.mpr (.inr ⟨rfl, List.nil_le below⟩)

/-- A directory answers as what it lists. -/
theorem directory {inner : List Entry} {r : Except Failure (List Found)}
    (h : w.leavesOut n (Path.join base n) = false)
    (short : ¬pathLimit ≤ (Path.join base n).length)
    (inside : w.Answers (Path.join base n) inner r) :
    w.Answers base [.directory n inner] r := by
  have stops : ∀ l, w.Stops base [.directory n inner] l ↔
      ∃ below, l = n :: below ∧ w.Stops (Path.join base n) inner below := by
    intro l
    exact meets_directory_iff_below h fun here => short here.2
  have finds : ∀ l, w.Finds base [.directory n inner] l ↔
      ∃ below, l = n :: below ∧ w.Finds (Path.join base n) inner below := by
    intro l
    exact meets_directory_iff_below h Bool.false_ne_true
  -- every location below the directory gets its name in front
  cases r with
  | error f =>
    obtain ⟨l, stop, least, rfl⟩ := inside
    refine ⟨n :: l, (stops _).mpr ⟨l, rfl, stop⟩, ?_, rfl⟩
    intro m hm
    obtain ⟨below, rfl, stop'⟩ := (stops m).mp hm
    exact List.cons_le_cons_iff.mpr (.inr ⟨rfl, least below stop'⟩)
  | ok fs =>
    obtain ⟨free, ls, rfl, sorted, mem⟩ := inside
    refine ⟨?_, ls.map (n :: ·), ?_, ?_, ?_⟩
    · intro l hl
      obtain ⟨below, _, stop⟩ := (stops l).mp hl
      exact free below stop
    · rw [List.map_map]
      apply List.map_congr_left
      intro l hl
      apply Eq.symm
      apply foundOf_cons
      rintro rfl
      exact not_meets_nil ((mem []).mp hl)
    · apply List.pairwise_map.mpr
      apply sorted.imp
      intro l m lt
      exact List.cons_lt_cons_iff.mpr (.inr ⟨rfl, lt⟩)
    · intro l
      rw [finds, List.mem_map]
      apply exists_congr
      intro below
      rw [mem, and_comm, eq_comm]

end Answers

/-! ### The walk itself -/

theorem foundAt_leaf (leaf : e.kind ≠ .directory) :
    w.foundAt base e = .ok
      (if w.leavesOut e.name (Path.join base e.name) || !w.holdsFile (Path.join base e.name) e.kind
        then [] else [foundOf base [e.name]]) := by
  cases e with
  | file n contents =>
    rw [foundAt]
    show _ = Except.ok (if w.leavesOut n _ || false then _ else _)
    rw [Bool.or_false]
    rfl
  | link n target =>
    rw [foundAt]
    rfl
  | directory n inner => exact absurd rfl leaf

theorem answers_leaf (leaf : e.kind ≠ .directory) : w.Answers base [e] (w.foundAt base e) := by
  rw [foundAt_leaf leaf]
  exact .leaf leaf

/-- Entry by entry, in ascending order. -/
theorem answers_mapM {listing : List Entry} (ascending : listing.Pairwise (·.name < ·.name))
    (each : ∀ e ∈ listing, w.Answers base [e] (w.foundAt base e)) :
    w.Answers base listing ((listing.mapM (w.foundAt base)).map List.flatten) := by
  induction listing with
  | nil =>
    apply Answers.of_nothing
    intro P l
    exact not_meets_of_empty
  | cons e rest ih =>
    obtain ⟨first, later⟩ := List.forall_mem_cons.mp each
    obtain ⟨below, ascending⟩ := List.pairwise_cons.mp ascending
    have both := Answers.cons below first (ih ascending later)
    -- the first failure ends the list, and is the result of both sides
    rw [List.mapM_cons]
    cases h : w.foundAt base e with
    | error f =>
      rw [h] at both
      exact both
    | ok fs =>
      rw [h] at both
      cases h' : rest.mapM (w.foundAt base) with
      | error f =>
        rw [h'] at both
        exact both
      | ok fss =>
        rw [h'] at both
        exact both

theorem answers_gather_of_each {listing : List Entry} (tree : IsTree listing)
    (each : ∀ e ∈ listing, w.Answers base [e] (w.foundAt base e)) :
    w.Answers base listing (gather (w.foundBelow base listing)) := by
  have sorted := Reordered.of_perm (byName_perm listing).symm
  have each : ∀ e ∈ byName listing, w.Answers base [e] (w.foundAt base e) := by
    intro e he
    exact each e ((byName_perm listing).mem_iff.mp he)
  rw [gather_foundBelow]
  exact (answers_mapM (byName_ascending tree.nodup) each).of_same (sorted.kindBelow?_eq tree).symm

/-- A walk finds at each entry what it is to find there. -/
theorem answers_foundAt {listing : List Entry} (tree : IsTree listing) :
    ∀ base, ∀ e ∈ listing, w.Answers base [e] (w.foundAt base e) := by
  -- the paths change on the way down, so this is for every `base`
  induction tree with
  | nil =>
    intro base e he
    exact absurd he List.not_mem_nil
  | file _ _ _ ih =>
    intro base
    exact List.forall_mem_cons.mpr ⟨answers_leaf nofun, ih base⟩
  | link _ _ _ ih =>
    intro base
    exact List.forall_mem_cons.mpr ⟨answers_leaf nofun, ih base⟩
  | @directory n inner rest _ _ tree _ inside ih =>
    intro base
    refine List.forall_mem_cons.mpr ⟨?_, ih base⟩
    rw [foundAt]
    by_cases out : w.leavesOut n (Path.join base n) = true
    · rw [if_pos out]
      exact .leftOut out
    have kept := Bool.not_eq_true _ ▸ out
    rw [if_neg out]
    by_cases long : (Path.join base n).length ≥ pathLimit
    · rw [if_pos long]
      exact .tooLong kept long
    rw [if_neg long]
    apply Answers.directory kept long
    exact answers_gather_of_each tree (inside (Path.join base n))

/-- **A walk below a directory comes to its answer.** -/
theorem answers_gather {listing : List Entry} (tree : IsTree listing) (base : Bytes) :
    w.Answers base listing (gather (w.foundBelow base listing)) :=
  answers_gather_of_each tree (answers_foundAt tree base)

/-- There is one answer. -/
theorem Answers.unique {r r' : Except Failure (List Found)} (h : w.Answers base listing r)
    (h' : w.Answers base listing r') : r = r' := by
  cases r with
  | error f =>
    obtain ⟨l, stop, least, rfl⟩ := h
    cases r' with
    | error f' =>
      obtain ⟨m, stop', least', rfl⟩ := h'
      rw [Std.le_antisymm (least m stop') (least' l stop)]
    | ok fs' => exact absurd stop (h'.1 l)
  | ok fs =>
    obtain ⟨free, ls, rfl, sorted, mem⟩ := h
    cases r' with
    | error f' =>
      obtain ⟨m, stop', _⟩ := h'
      exact absurd stop' (free m)
    | ok fs' =>
      obtain ⟨_, ls', rfl, sorted', mem'⟩ := h'
      have same : ls = ls' := by
        apply sorted.eq_of_mem_iff sorted'
        intro l
        rw [mem, mem']
      rw [same]

end AssetAudit.Walk

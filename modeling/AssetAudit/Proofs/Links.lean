/-
AssetAudit/Proofs/Links.lean

How many links a path leads over.

The system follows so many links along one path and no more.  A path that is
followed to its end is followed to the same end with more links to spare
(`follow_add`), so it leads over a number of links of its own
(`FileSystem.linksOn`), and a path that goes on behind a directory has exactly
those left that the path of the directory does not use up
(`FileSystem.followed_joinAll`).

Two paths of one directory therefore lead on to the same things below it, but
for places that lie behind too many links for one of them
(`FileSystem.lookup_joinAll_cases`).  If they lead over equally many links, there
are no such places (`FileSystem.lookup_joinAll_eq`).
-/
import AssetAudit.Proofs.Descending

namespace AssetAudit

/-- The path leads over more links than may be followed. -/
def isTooFar : Except LookupError Place → Bool
  | .error .tooManyLinks => true
  | _ => false

theorem eq_of_isTooFar {r : Except LookupError Place} (h : isTooFar r = true) :
    r = .error .tooManyLinks := by
  unfold isTooFar at h
  split at h
  · rfl
  · cases h

/-- **Links to spare make no difference** to a path that is followed to its
end. -/
theorem follow_add {top : List Entry} {here : Location} {segments : List Bytes} {links : Nat}
    (near : isTooFar (follow top .follow links here segments) = false) (more : Nat) :
    follow top .follow (links + more) here segments = follow top .follow links here segments := by
  -- a link uses up one and puts its target in front, so this is for all segments
  induction links using Nat.strongRecOn generalizing here segments with
  | ind links later =>
    induction segments generalizing here with
    | nil => rw [follow_still (by simp), follow_still (by simp)]
    | cons s segments ih =>
      rcases follow_cons_cases top here s with ⟨next, on⟩ | ⟨next, target, on⟩ | ⟨_, on, _⟩
      · rw [on] at near
        rw [on, on]
        exact ih near
      · cases links with
        | zero =>
          rw [(on _).1] at near
          cases near
        | succ links =>
          rw [(on _).2] at near
          rw [Nat.add_right_comm, (on _).2, (on _).2]
          exact later links (Nat.lt_succ_self _) near
      · rw [on, on]

namespace FileSystem

variable {fs : FileSystem} {path root root' : Bytes} {here l : Location} {d : List Entry}

/-! ### The links on a path -/

/-- What a path leads to over so many links at most. -/
def followed (fs : FileSystem) (links : Nat) (path : Bytes) : Except LookupError Place :=
  follow fs.top .follow links (if isAbsolute path then [] else fs.workingDirectory)
    (Path.segments path)

/-- The number of links that a path leads over, as far as the system follows
them. -/
def linksOn (fs : FileSystem) (path : Bytes) : Nat :=
  ((List.range linkLimit).find? fun links => !isTooFar (fs.followed links path)).getD linkLimit

theorem linksOn_le {links : Nat} (near : isTooFar (fs.followed links path) = false) :
    fs.linksOn path ≤ links := by
  rw [linksOn]
  cases h : (List.range linkLimit).find? fun links => !isTooFar (fs.followed links path) with
  | none =>
    rw [Option.getD_none]
    apply Nat.le_of_not_lt
    intro lt
    have all := List.find?_eq_none.mp h links (List.mem_range.mpr lt)
    rw [near] at all
    exact all rfl
  | some least =>
    rw [Option.getD_some]
    apply Nat.le_of_not_lt
    intro lt
    obtain ⟨_, _, before⟩ := List.find?_range_eq_some.mp h
    have far := before links lt
    rw [near] at far
    cases far

theorem linksOn_le_linkLimit (fs : FileSystem) (path : Bytes) : fs.linksOn path ≤ linkLimit := by
  rw [linksOn]
  cases h : (List.range linkLimit).find? fun links => !isTooFar (fs.followed links path) with
  | none => exact Nat.le_refl _
  | some least =>
    have mem := List.mem_of_find?_eq_some h
    exact Nat.le_of_lt (List.mem_range.mp mem)

/-- The links that a path leads over suffice to follow it. -/
theorem followed_linksOn (near : isTooFar (fs.followed linkLimit path) = false) :
    fs.followed (fs.linksOn path) path = fs.followed linkLimit path := by
  have enough : isTooFar (fs.followed (fs.linksOn path) path) = false := by
    rw [linksOn]
    cases h : (List.range linkLimit).find? fun links => !isTooFar (fs.followed links path) with
    | none => exact near
    | some least =>
      have found := List.find?_some h
      rwa [Bool.not_eq_true'] at found
  obtain ⟨more, all⟩ := Nat.exists_eq_add_of_le (linksOn_le_linkLimit fs path)
  rw [all]
  exact (follow_add enough more).symm

/-! ### Paths behind a directory -/

/-- **A path that goes on behind a directory has the links left** that the path
of the directory does not use up. -/
theorem followed_joinAll (place : fs.lookup .follow root = .ok (.directory here d)) (below : l ≠ [])
    (names : ∀ n ∈ l, IsEntryName n) :
    fs.followed linkLimit (Path.joinAll root l) =
      follow fs.top .follow (linkLimit - fs.linksOn root) here l := by
  obtain ⟨_, written, _⟩ := valid_of_lookup place
  have whole : fs.followed linkLimit root = .ok (.directory here d) := follow_of_lookup place
  have own : fs.followed (fs.linksOn root) root = .ok (.directory here d) := by
    rw [followed_linksOn, whole]
    rw [whole]
    rfl
  obtain ⟨passed, le, reached, on⟩ := exists_follow_joinAll written own
  -- no fewer links lead to the directory
  have exact : passed = fs.linksOn root := by
    refine Nat.le_antisymm le (linksOn_le ?_)
    rw [followed, reached]
    rfl
  have rest := on (linkLimit - passed) l below names
  rwa [Nat.add_sub_cancel' (Nat.le_trans le (linksOn_le_linkLimit fs root)), exact] at rest

/-- What a path leads to is found there, unless nothing is there. -/
def unlessVacant : Except LookupError Place → Except LookupError Place
  | .ok (.vacant _ _) => .error .notFound
  | r => r

theorem lookup_joinAll (place : fs.lookup .follow root = .ok (.directory here d)) (below : l ≠ [])
    (names : ∀ n ∈ l, IsEntryName n ∧ 0 ∉ n) (short : (Path.joinAll root l).length < pathLimit) :
    fs.lookup .follow (Path.joinAll root l) =
      unlessVacant (follow fs.top .follow (linkLimit - fs.linksOn root) here l) := by
  obtain ⟨valid, written, _⟩ := valid_of_lookup place
  have valid : (Path.joinAll root l).contains 0 = false := by
    rw [List.contains_eq_mem, decide_eq_false_iff_not] at valid ⊢
    exact zero_not_mem_joinAll valid fun n hn => (names n hn).2
  rw [lookup, locate_of_valid valid (joinAll_ne_nil written l) short,
    ← followed_joinAll place below fun n hn => (names n hn).1]
  rfl

/-! ### Two paths of one directory -/

section TwoPaths

variable (place : fs.lookup .follow root = .ok (.directory here d))
  (place' : fs.lookup .follow root' = .ok (.directory here d)) (below : l ≠ [])
  (names : ∀ n ∈ l, IsEntryName n ∧ 0 ∉ n) (short : (Path.joinAll root l).length < pathLimit)
  (short' : (Path.joinAll root' l).length < pathLimit)

include place place' below names short short'

/-- Two paths of one directory lead on to the same, unless one of them is followed
over too many links. -/
theorem lookup_joinAll_cases :
    fs.lookup .follow (Path.joinAll root l) = fs.lookup .follow (Path.joinAll root' l) ∨
      fs.lookup .follow (Path.joinAll root l) = .error .tooManyLinks ∨
      fs.lookup .follow (Path.joinAll root' l) = .error .tooManyLinks := by
  rw [lookup_joinAll place below names short, lookup_joinAll place' below names short']
  -- the path with fewer links left is followed as far as the other, or too far
  rcases Nat.le_total (linkLimit - fs.linksOn root) (linkLimit - fs.linksOn root') with le | le
  · obtain ⟨more, e⟩ := Nat.exists_eq_add_of_le le
    cases near : isTooFar (follow fs.top .follow (linkLimit - fs.linksOn root) here l) with
    | false => exact .inl (by rw [e, follow_add near])
    | true => exact .inr (.inl (by rw [eq_of_isTooFar near]; rfl))
  · obtain ⟨more, e⟩ := Nat.exists_eq_add_of_le le
    cases near : isTooFar (follow fs.top .follow (linkLimit - fs.linksOn root') here l) with
    | false => exact .inl (by rw [e, follow_add near])
    | true => exact .inr (.inr (by rw [eq_of_isTooFar near]; rfl))

/-- Two paths of one directory that lead over equally many links lead on to the
same. -/
theorem lookup_joinAll_eq (links : fs.linksOn root = fs.linksOn root') :
    fs.lookup .follow (Path.joinAll root l) = fs.lookup .follow (Path.joinAll root' l) := by
  rw [lookup_joinAll place below names short, lookup_joinAll place' below names short', links]

end TwoPaths

end FileSystem

end AssetAudit

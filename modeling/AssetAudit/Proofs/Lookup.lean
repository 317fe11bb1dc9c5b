/-
AssetAudit/Proofs/Lookup.lean

What following a path depends on.

A path is followed by asking what is at one location after another, so in two
trees whose locations lead to the same things every path leads to the same
place.  Only the order in which a directory there is listed may be another:
the `outline` of a place is what remains of it when that is left out.  What one
segment does is said first (`moveAt_of_same`, `moveAt_cases`), and whatever holds
of paths is derived from that.

* `follow_outline` — paths are followed alike in such trees;
* `listingAt?_of_follow` — a directory that is found is where it is said to be;
* `FileSystem.lookup_directory_of_same`, `FileSystem.isFile_of_same` — both
  for the file system.
-/
import AssetAudit.FileSystem.Lookup
import AssetAudit.Proofs.Outcomes
import AssetAudit.Proofs.Tree

namespace AssetAudit

/-! ### Trees with the same locations -/

section Same

variable {top top' : List Entry}

theorem listingAt?_of_same (same : kindBelow? top = kindBelow? top') {here : Location}
    {d : List Entry} (h : listingAt? top here = some d) :
    ∃ d', listingAt? top' here = some d' ∧ kindBelow? d = kindBelow? d' := by
  have there : ∃ d', listingAt? top' here = some d' := by
    cases here with
    | nil => exact ⟨top', rfl⟩
    | cons n here =>
      rw [← kindBelow?_eq_directory_iff, ← same, kindBelow?_eq_directory_iff]
      exact ⟨d, h⟩
  obtain ⟨d', h'⟩ := there
  refine ⟨d', h', ?_⟩
  funext l
  cases l with
  | nil => rfl
  | cons n l =>
    have more := List.cons_ne_nil n l
    rw [← kindBelow?_append h more, ← kindBelow?_append h' more, same]

theorem listingAt?_eq_none_of_same (same : kindBelow? top = kindBelow? top') {here : Location}
    (h : listingAt? top here = none) : listingAt? top' here = none := by
  cases h' : listingAt? top' here with
  | none => rfl
  | some d' =>
    obtain ⟨d, found, _⟩ := listingAt?_of_same same.symm h'
    rw [h] at found
    cases found

/-- Two entries of one kind, or none on either side. -/
theorem cases_of_map_kind {a b : Option Entry} (h : a.map Entry.kind = b.map Entry.kind) :
    (a = none ∧ b = none) ∨
    (∃ n m contents, a = some (.file n contents) ∧ b = some (.file m contents)) ∨
    (∃ n m target, a = some (.link n target) ∧ b = some (.link m target)) ∨
    (∃ n m inner inner', a = some (.directory n inner) ∧ b = some (.directory m inner')) := by
  cases a with
  | none =>
    cases b with
    | none => exact .inl ⟨rfl, rfl⟩
    | some _ => cases h
  | some e =>
    cases b with
    | none => cases h
    | some d =>
      have kinds : e.kind = d.kind := Option.some.inj h
      cases e with
      | file n contents =>
        cases d with
        | file m _ => exact .inr (.inl ⟨n, m, contents, rfl, by rw [Kind.file.inj kinds]⟩)
        | link _ _ => cases kinds
        | directory _ _ => cases kinds
      | link n target =>
        cases d with
        | file _ _ => cases kinds
        | link m _ => exact .inr (.inr (.inl ⟨n, m, target, rfl, by rw [Kind.link.inj kinds]⟩))
        | directory _ _ => cases kinds
      | directory n inner =>
        cases d with
        | file _ _ => cases kinds
        | link _ _ => cases kinds
        | directory m inner' => exact .inr (.inr (.inr ⟨n, m, inner, inner', rfl, rfl⟩))

end Same

/-! ### One segment -/

section Segment

variable {top top' d : List Entry} {here there : Location} {s : Bytes} {p : Place}
  {e : LookupError}

/-- Where a name leads depends on the kind of what is there. -/
theorem moveTo_of_kind {a b : Option Entry} (h : a.map Entry.kind = b.map Entry.kind) :
    moveTo here s (some a) = moveTo here s (some b) := by
  rcases cases_of_map_kind h with ⟨rfl, rfl⟩ | ⟨_, _, _, rfl, rfl⟩ | ⟨_, _, _, rfl, rfl⟩ |
    ⟨_, _, _, _, rfl, rfl⟩ <;> rfl

/-- In trees with the same locations a segment leads to the same. -/
theorem moveAt_of_same (same : kindBelow? top = kindBelow? top') :
    moveAt top here s = moveAt top' here s := by
  have found : moveTo here s ((listingAt? top here).map (entryOf? · s)) =
      moveTo here s ((listingAt? top' here).map (entryOf? · s)) := by
    cases h : listingAt? top here with
    | none => rw [listingAt?_eq_none_of_same same h]
    | some d =>
      obtain ⟨d', h', inside⟩ := listingAt?_of_same same h
      rw [h']
      exact moveTo_of_kind (congrFun inside [s])
  rw [moveAt, moveAt, found]

/-- **What a segment does.**  It stays or goes up whatever is there, or it is a
name that is not too long, and then it leads to what is there. -/
theorem moveAt_cases (here : Location) (s : Bytes) :
    (∃ next, ∀ top, moveAt top here s = .on next) ∨
    (∀ top, moveAt top here s = .stop .nameTooLong) ∨
    ∀ top, moveAt top here s = moveTo here s ((listingAt? top here).map (entryOf? · s)) := by
  simp only [moveAt]
  by_cases stay : (s.isEmpty || Path.isDot s) = true
  · exact .inl ⟨here, fun _ => if_pos stay⟩
  by_cases up : Path.isDotDot s = true
  · exact .inl ⟨here.dropLast, fun _ => by rw [if_neg stay, if_pos up]⟩
  by_cases long : s.length > nameLimit
  · exact .inr (.inl fun _ => by rw [if_neg stay, if_neg up, if_pos long])
  · exact .inr (.inr fun _ => by rw [if_neg stay, if_neg up, if_neg long])

/-- Where a path has to end, it is at no directory. -/
theorem eq_of_moveAt_last (h : moveAt top here s = .last p e) :
    p = .vacant here s ∨ ∃ contents, p = .file (here ++ [s]) contents := by
  rcases moveAt_cases here s with ⟨next, on⟩ | long | found
  · cases (on top).symm.trans h
  · cases (long top).symm.trans h
  · rw [found, moveTo.eq_def] at h
    split at h <;> cases h
    · exact .inl rfl
    · exact .inr ⟨_, rfl⟩

/-- So a path that ends there leads to no directory. -/
theorem ne_directory_of_moveAt_last (h : moveAt top here s = .last p e) (rest : List Bytes) :
    (if rest.isEmpty then Except.ok p else .error e) ≠ .ok (.directory there d) := by
  split
  · rcases eq_of_moveAt_last h with rfl | ⟨_, rfl⟩ <;> exact nofun
  · exact nofun

end Segment

/-! ### Following a path -/

/-- A place without what a directory there lists. -/
def Place.outline : Place → Place
  | .directory here _ => .directory here []
  | p => p

theorem Place.eq_or_directory_of_outline_eq {p p' : Place} (h : p.outline = p'.outline) :
    p = p' ∨ ∃ here d d', p = .directory here d ∧ p' = .directory here d' := by
  cases p with
  | directory here d =>
    cases p' with
    | directory there d' =>
      cases h
      exact .inr ⟨here, d, d', rfl, rfl⟩
    | _ => cases h
  | vacant _ _ =>
    cases p' with
    | directory _ _ => cases h
    | _ => exact .inl h
  | file _ _ =>
    cases p' with
    | directory _ _ => cases h
    | _ => exact .inl h
  | link _ _ =>
    cases p' with
    | directory _ _ => cases h
    | _ => exact .inl h

/-- Where two outcomes have one outline, they are the same but for the listing
of a directory. -/
theorem eq_or_directory_of_map_outline_eq {r r' : Except LookupError Place}
    (h : r.map Place.outline = r'.map Place.outline) :
    r = r' ∨ ∃ here d d', r = .ok (.directory here d) ∧ r' = .ok (.directory here d') := by
  cases r with
  | error e =>
    cases r' with
    | error e' => exact .inl h
    | ok p' => cases h
  | ok p =>
    cases r' with
    | error e' => cases h
    | ok p' =>
      rcases Place.eq_or_directory_of_outline_eq (Except.ok.inj h) with
        rfl | ⟨here, d, d', rfl, rfl⟩
      · exact .inl rfl
      · exact .inr ⟨here, d, d', rfl, rfl⟩

section Outline

variable {top top' : List Entry} {last : LastLink}

/-- What holds of the links on the way holds of the whole way. -/
theorem followSegments_outline (same : kindBelow? top = kindBelow? top')
    {onLink onLink' : Location → List Bytes → Except LookupError Place}
    (links : ∀ here segments,
      (onLink here segments).map Place.outline = (onLink' here segments).map Place.outline)
    (here : Location) (segments : List Bytes) :
    (followSegments top last onLink here segments).map Place.outline =
      (followSegments top' last onLink' here segments).map Place.outline := by
  induction segments generalizing here with
  | nil =>
    rw [followSegments, followSegments]
    cases h : listingAt? top here with
    | none =>
      rw [listingAt?_eq_none_of_same same h]
    | some d =>
      obtain ⟨d', h', _⟩ := listingAt?_of_same same h
      rw [h']
      rfl
  | cons s rest ih =>
    rw [followSegments, followSegments, moveAt_of_same same]
    cases moveAt top' here s with
    | on next => exact ih next
    | last p e => rfl
    | stop e => rfl
    | link target =>
      -- the link is kept in both trees, or both go on with its target
      dsimp only
      split
      · rfl
      · split
        · rfl
        · exact links _ _

theorem follow_outline (same : kindBelow? top = kindBelow? top') (links : Nat) (here : Location)
    (segments : List Bytes) :
    (follow top last links here segments).map Place.outline =
      (follow top' last links here segments).map Place.outline := by
  induction links generalizing here segments with
  | zero => exact followSegments_outline same (fun _ _ => rfl) here segments
  | succ links ih => exact followSegments_outline same ih here segments

end Outline

/-- Segments that say nothing are passed over. -/
theorem followSegments_still {top : List Entry} {last : LastLink} {here : Location}
    {onLink : Location → List Bytes → Except LookupError Place} {segments : List Bytes}
    (still : ∀ s ∈ segments, (s.isEmpty || Path.isDot s) = true) :
    followSegments top last onLink here segments = followSegments top last onLink here [] := by
  induction segments with
  | nil => rfl
  | cons s rest ih =>
    obtain ⟨first, later⟩ := List.forall_mem_cons.mp still
    rw [← ih later, followSegments, moveAt, if_pos first]

/-- Segments that say nothing lead nowhere else. -/
theorem followSegments_of_still {top d : List Entry} {last : LastLink} {here : Location}
    {onLink : Location → List Bytes → Except LookupError Place} {segments : List Bytes}
    (still : ∀ s ∈ segments, (s.isEmpty || Path.isDot s) = true)
    (h : listingAt? top here = some d) :
    followSegments top last onLink here segments = .ok (.directory here d) := by
  rw [followSegments_still still, followSegments, h]

/-! ### Directories that are found -/

theorem listingAt?_of_followSegments {top d : List Entry} {last : LastLink} {there : Location}
    {onLink : Location → List Bytes → Except LookupError Place}
    (links : ∀ here segments, onLink here segments = .ok (.directory there d) →
      listingAt? top there = some d)
    {here : Location} {segments : List Bytes}
    (h : followSegments top last onLink here segments = .ok (.directory there d)) :
    listingAt? top there = some d := by
  induction segments generalizing here with
  | nil =>
    rw [followSegments] at h
    split at h
    · rename_i listing found
      cases h
      exact found
    · cases h
  | cons s rest ih =>
    rw [followSegments] at h
    cases move : moveAt top here s with
    | on next =>
      rw [move] at h
      exact ih h
    | last p e =>
      rw [move] at h
      exact absurd h (ne_directory_of_moveAt_last move rest)
    | stop e =>
      rw [move] at h
      cases h
    | link target =>
      rw [move] at h
      dsimp only at h
      split at h
      · cases h
      · split at h
        · cases h
        · exact links _ _ h

/-- A directory that a path leads to is listed at its location. -/
theorem listingAt?_of_follow {top d : List Entry} {last : LastLink} {there : Location}
    {links : Nat} {here : Location} {segments : List Bytes}
    (h : follow top last links here segments = .ok (.directory there d)) :
    listingAt? top there = some d := by
  induction links generalizing here segments with
  | zero =>
    rw [follow] at h
    refine listingAt?_of_followSegments (fun _ _ past => ?_) h
    cases past
  | succ links ih =>
    rw [follow] at h
    exact listingAt?_of_followSegments (fun _ _ further => ih further) h

namespace FileSystem

/-- A path of dots and slashes alone leads to the working directory. -/
theorem lookup_of_still {fs : FileSystem} {last : LastLink} {path : Bytes} {d : List Entry}
    (valid : path.contains 0 = false) (written : path.isEmpty = false)
    (short : path.length < pathLimit) (relative : isAbsolute path = false)
    (still : ∀ s ∈ Path.segments path, (s.isEmpty || Path.isDot s) = true)
    (h : listingAt? fs.top fs.workingDirectory = some d) :
    fs.lookup last path = .ok (.directory fs.workingDirectory d) := by
  have located : fs.locate last path = .ok (.directory fs.workingDirectory d) := by
    rw [locate, valid, written, relative, if_neg Bool.false_ne_true, if_neg Bool.false_ne_true,
      if_neg (Nat.not_le_of_lt short), if_neg Bool.false_ne_true, linkLimit, follow]
    exact followSegments_of_still still h
  rw [lookup, located]

/-- What is found at a path is where the path leads to. -/
theorem locate_of_lookup {fs : FileSystem} {last : LastLink} {path : Bytes} {p : Place}
    (h : fs.lookup last path = .ok p) : fs.locate last path = .ok p := by
  rw [lookup] at h
  split at h
  · cases h
  · exact h

/-- A path that the system takes is followed segment by segment. -/
theorem locate_of_valid {fs : FileSystem} {last : LastLink} {path : Bytes}
    (valid : path.contains 0 = false) (written : path ≠ []) (short : path.length < pathLimit) :
    fs.locate last path = follow fs.top last linkLimit
      (if isAbsolute path then [] else fs.workingDirectory) (Path.segments path) := by
  rw [locate, valid, if_neg Bool.false_ne_true, if_neg (mt List.isEmpty_iff.mp written),
    if_neg (Nat.not_le_of_lt short)]

/-- A path that leads to something is one that the system takes. -/
theorem valid_of_lookup {fs : FileSystem} {last : LastLink} {path : Bytes} {p : Place}
    (h : fs.lookup last path = .ok p) :
    path.contains 0 = false ∧ path ≠ [] ∧ path.length < pathLimit := by
  have located := locate_of_lookup h
  rw [locate] at located
  split at located
  · cases located
  rename_i valid
  split at located
  · cases located
  rename_i written
  split at located
  · cases located
  rename_i short
  exact ⟨Bool.not_eq_true _ ▸ valid, mt List.isEmpty_iff.mpr written, Nat.lt_of_not_ge short⟩

/-- What is found at a path comes of following it. -/
theorem follow_of_lookup {fs : FileSystem} {last : LastLink} {path : Bytes} {p : Place}
    (h : fs.lookup last path = .ok p) :
    follow fs.top last linkLimit (if isAbsolute path then [] else fs.workingDirectory)
      (Path.segments path) = .ok p := by
  obtain ⟨valid, written, short⟩ := valid_of_lookup h
  rw [← locate_of_valid valid written short]
  exact locate_of_lookup h

variable {top top' : List Entry} {w : Location}

theorem locate_outline (same : kindBelow? top = kindBelow? top') (last : LastLink) (path : Bytes) :
    (locate ⟨top, w⟩ last path).map Place.outline =
      (locate ⟨top', w⟩ last path).map Place.outline := by
  rw [locate, locate]
  split
  · rfl
  split
  · rfl
  split
  · rfl
  exact follow_outline same linkLimit _ _

theorem lookup_outline (same : kindBelow? top = kindBelow? top') (last : LastLink) (path : Bytes) :
    (lookup ⟨top, w⟩ last path).map Place.outline =
      (lookup ⟨top', w⟩ last path).map Place.outline := by
  rw [lookup, lookup]
  rcases eq_or_directory_of_map_outline_eq (locate_outline (w := w) same last path) with
    e | ⟨_, _, _, e, e'⟩
  · rw [e]
  · rw [e, e']
    rfl

/-- Whether a path leads to a file is the same in both trees. -/
theorem isFile_of_same (same : kindBelow? top = kindBelow? top') (path : Bytes) :
    isFile ⟨top, w⟩ path = isFile ⟨top', w⟩ path := by
  rw [isFile, isFile]
  rcases eq_or_directory_of_map_outline_eq (lookup_outline (w := w) same .follow path) with
    e | ⟨_, _, _, e, e'⟩
  · rw [e]
  · rw [e, e']

/-- A directory that is found is listed at its location. -/
theorem listingAt?_of_lookup {fs : FileSystem} {last : LastLink} {path : Bytes} {here : Location}
    {d : List Entry} (h : fs.lookup last path = .ok (.directory here d)) :
    listingAt? fs.top here = some d :=
  listingAt?_of_follow (follow_of_lookup h)

/-- A directory that is found in one tree is found in the other, at the same
location, and the same is below it. -/
theorem lookup_directory_of_same (same : kindBelow? top = kindBelow? top') {last : LastLink}
    {path : Bytes} {here : Location} {d : List Entry}
    (h : lookup ⟨top, w⟩ last path = .ok (.directory here d)) :
    ∃ d', lookup ⟨top', w⟩ last path = .ok (.directory here d') ∧ kindBelow? d = kindBelow? d' := by
  obtain ⟨d', listed, inside⟩ := listingAt?_of_same same (listingAt?_of_lookup h)
  rcases eq_or_directory_of_map_outline_eq (lookup_outline (w := w) same last path) with
    e | ⟨there, d₁, d₂, e, e'⟩
  · rw [e] at h
    have again : listingAt? top' here = some d := listingAt?_of_lookup h
    rw [listed] at again
    cases again
    exact ⟨d, h, inside⟩
  · rw [h] at e
    cases e
    have again : listingAt? top' here = some d₂ := listingAt?_of_lookup e'
    rw [listed] at again
    cases again
    exact ⟨d', e', inside⟩

end FileSystem

end AssetAudit

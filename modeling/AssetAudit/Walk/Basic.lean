/-
AssetAudit/Walk/Basic.lean

Going through a project directory by directory.

A walk goes through everything below a root: the entries of each directory in
the order of their names, byte by byte, and what is inside a directory right
where the directory stands.  It finds files, and links that lead to a file; a
link to a directory is not gone into.  What is excluded is passed over with
all it holds.  The root itself is never excluded, may be reached through
links, and is found itself if it is a file.

Each file found has a path, the root's path with the names joined to it, and
the name it was found under.  A walk fails where the root does not lead
anywhere, or where a directory's path is longer than a path may be; nothing
is found then.
-/
import AssetAudit.Path.Relative
import AssetAudit.Walk.Exclusion

namespace AssetAudit

/-- A file that a walk has found. -/
structure Found where
  /-- The path of the file, which begins with the path of the root. -/
  path : Bytes
  /-- The name of the file in its directory. -/
  name : Bytes
  deriving DecidableEq, Repr

/-! ### The order of a listing -/

/-- The list with an item put in the place of its name. -/
def insertByName {β : Type} (item : Bytes × β) : List (Bytes × β) → List (Bytes × β)
  | [] => [item]
  | other :: rest =>
    if item.1 ≤ other.1 then item :: other :: rest else other :: insertByName item rest

/-- The items in the order of their names. -/
def sortByName {β : Type} (items : List (Bytes × β)) : List (Bytes × β) :=
  items.foldr insertByName []

/-- Sorting loses and doubles nothing. -/
theorem insertByName_perm {β : Type} (item : Bytes × β) (items : List (Bytes × β)) :
    (insertByName item items).Perm (item :: items) := by
  induction items with
  | nil => exact .refl _
  | cons other rest ih =>
    unfold insertByName
    split
    · exact .refl _
    · exact (ih.cons other).trans (.swap item other rest)

theorem sortByName_perm {β : Type} (items : List (Bytes × β)) :
    (sortByName items).Perm items := by
  induction items with
  | nil => exact .refl _
  | cons item rest ih => exact (insertByName_perm item _).trans (ih.cons item)

theorem insertByName_sorted {β : Type} (item : Bytes × β) {items : List (Bytes × β)}
    (h : items.Pairwise fun a b => a.1 ≤ b.1) :
    (insertByName item items).Pairwise fun a b => a.1 ≤ b.1 := by
  induction items with
  | nil => simp [insertByName]
  | cons other rest ih =>
    obtain ⟨first, later⟩ := List.pairwise_cons.mp h
    unfold insertByName
    split
    · rename_i le
      refine List.pairwise_cons.mpr ⟨fun b hb => ?_, h⟩
      rcases List.mem_cons.mp hb with rfl | hb
      · exact le
      · exact List.le_trans le (first b hb)
    · rename_i gt
      refine List.pairwise_cons.mpr ⟨fun b hb => ?_, ih later⟩
      rcases List.mem_cons.mp ((insertByName_perm item rest).mem_iff.mp hb) with rfl | hb
      · exact (List.le_total other.1 b.1).resolve_right gt
      · exact first b hb

/-- A sorted list ascends by name. -/
theorem sortByName_sorted {β : Type} (items : List (Bytes × β)) :
    (sortByName items).Pairwise fun a b => a.1 ≤ b.1 := by
  induction items with
  | nil => exact .nil
  | cons item rest ih => exact insertByName_sorted item ih

/-- All that was found, in the order of the names it was found under, unless
something failed on the way. -/
def gather {ε β : Type} (items : List (Bytes × Except ε (List β))) : Except ε (List β) :=
  ((sortByName items).mapM Prod.snd).map List.flatten

/-! ### The walk -/

/-- What a walk is to go through. -/
structure Walk where
  fs : FileSystem
  exclusion : Exclusion
  root : Bytes

namespace Walk

/-- The entry of that name and path is left out. -/
def leavesOut (w : Walk) (name path : Bytes) : Bool :=
  w.exclusion.leavesOut name (Path.seenFrom w.root path)

mutual

/-- What is found at an entry of the directory at `base`. -/
def foundAt (w : Walk) (base : Bytes) : Entry → Except Failure (List Found)
  | .file name _ =>
    let path := Path.join base name
    .ok (if w.leavesOut name path then [] else [⟨path, name⟩])
  | .link name _ =>
    let path := Path.join base name
    .ok (if w.leavesOut name path || !w.fs.isFile path then [] else [⟨path, name⟩])
  | .directory name listing =>
    let path := Path.join base name
    if w.leavesOut name path then .ok []
    else if path.length ≥ pathLimit then .error (.walk w.root path .nameTooLong)
    else gather (foundBelow w path listing)

/-- What is found at each entry of the directory at `base`. -/
def foundBelow (w : Walk) (base : Bytes) :
    List Entry → List (Bytes × Except Failure (List Found))
  | [] => []
  | e :: rest => (e.name, foundAt w base e) :: foundBelow w base rest

end

/-- The file at the root itself. -/
def foundRoot (w : Walk) : Found :=
  ⟨w.root, Path.basename w.root⟩

/-- All files of the walk, in order. -/
def found (w : Walk) : Except Failure (List Found) :=
  match w.fs.lookup .follow w.root with
  | .error cause => .error (.walk w.root w.root cause)
  | .ok (.directory _ listing) => gather (foundBelow w w.root listing)
  | .ok _ => .ok [w.foundRoot]

/-- The files of the walk whose names, as they are shown, pass the test. -/
def select (w : Walk) (wanted : Text → Bool) : Except Failure (List Found) :=
  w.found.map fun fs => fs.filter fun f => wanted (Utf8.decodeLossy f.name)

end Walk

end AssetAudit

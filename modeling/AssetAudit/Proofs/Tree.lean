/-
AssetAudit/Proofs/Tree.lean

Trees as they are found on a disk.

* `IsTree listing` — in each directory the entries have names that entries can
  have, and no name twice.  It is built along the entries, so an induction on
  it runs over the whole tree;
* `kindBelow? listing location` — what a location leads to, a file, a link or a
  directory, without what is listed there.  It is all that can be known of a
  tree without regard to the order of its listings;
* `Reordered listing listing'` — the same entries in another order, at every
  level.

A tree stays a tree when it is reordered, and its locations lead to the same
things (`Reordered.isTree`, `Reordered.kindBelow?_eq`).
-/
import AssetAudit.FileSystem.Tree
import AssetAudit.Path.Component

namespace AssetAudit

/-! ### Names and trees -/

/-- A name that an entry of a directory can have: not empty, neither `.` nor
`..`, and without a slash. -/
def IsEntryName (n : Bytes) : Prop :=
  Path.isProper n = true ∧ ∀ u ∈ n, CodeUnit.is u '/' = false

instance (n : Bytes) : Decidable (IsEntryName n) :=
  decidable_of_iff (Path.isProper n = true ∧ n.all (!CodeUnit.is · '/') = true)
    (and_congr_right fun _ => by simp only [List.all_eq_true, Bool.not_eq_true'])

/-- The names of a listing. -/
def namesIn (listing : List Entry) : List Bytes :=
  listing.map Entry.name

/-- In each directory the names are proper and none is there twice. -/
inductive IsTree : List Entry → Prop
  | nil : IsTree []
  | file {n contents rest} : IsEntryName n → n ∉ namesIn rest → IsTree rest →
      IsTree (.file n contents :: rest)
  | link {n target rest} : IsEntryName n → n ∉ namesIn rest → IsTree rest →
      IsTree (.link n target :: rest)
  | directory {n inner rest} : IsEntryName n → n ∉ namesIn rest → IsTree inner → IsTree rest →
      IsTree (.directory n inner :: rest)

namespace IsTree

variable {e : Entry} {listing inner rest : List Entry} {n : Bytes}

theorem head (h : IsTree (e :: rest)) : IsEntryName e.name ∧ e.name ∉ namesIn rest := by
  cases h with
  | file hn fresh _ => exact ⟨hn, fresh⟩
  | link hn fresh _ => exact ⟨hn, fresh⟩
  | directory hn fresh _ _ => exact ⟨hn, fresh⟩

theorem tail (h : IsTree (e :: rest)) : IsTree rest := by
  cases h with
  | file _ _ hrest => exact hrest
  | link _ _ hrest => exact hrest
  | directory _ _ _ hrest => exact hrest

/-- An entry goes in front of a tree that does not have its name. -/
theorem cons_of_cons {other : List Entry} (h : IsTree (e :: rest)) (fresh : e.name ∉ namesIn other)
    (hother : IsTree other) : IsTree (e :: other) := by
  cases h with
  | file hn _ _ => exact .file hn fresh hother
  | link hn _ _ => exact .link hn fresh hother
  | directory hn _ hinner _ => exact .directory hn fresh hinner hother

theorem isEntryName (h : IsTree listing) : ∀ e ∈ listing, IsEntryName e.name := by
  induction listing with
  | nil => intro e he; cases he
  | cons d rest ih => exact List.forall_mem_cons.mpr ⟨h.head.1, ih h.tail⟩

theorem nodup (h : IsTree listing) : (namesIn listing).Nodup := by
  induction listing with
  | nil => exact List.nodup_nil
  | cons d rest ih => exact List.nodup_cons.mpr ⟨h.head.2, ih h.tail⟩

/-- What a directory of a tree lists is a tree. -/
theorem inner_of_mem (h : IsTree listing) (mem : .directory n inner ∈ listing) :
    IsTree inner := by
  induction h with
  | nil => cases mem
  | file _ _ _ ih =>
    rcases List.mem_cons.mp mem with e | mem
    · cases e
    · exact ih mem
  | link _ _ _ ih =>
    rcases List.mem_cons.mp mem with e | mem
    · cases e
    · exact ih mem
  | directory _ _ hinner _ _ ih =>
    rcases List.mem_cons.mp mem with e | mem
    · cases e
      exact hinner
    · exact ih mem

end IsTree

mutual

/-- What the entry lists, if it is a directory, passes as a tree. -/
def Entry.holdsTree : Entry → Bool
  | .directory _ inner => isTree inner
  | _ => true

/-- The listing passes as a tree. -/
def isTree : List Entry → Bool
  | [] => true
  | e :: rest => decide (IsEntryName e.name ∧ e.name ∉ namesIn rest) && e.holdsTree && isTree rest

end

theorem isTree_cons {e : Entry} {rest : List Entry} :
    isTree (e :: rest) = true ↔
      (IsEntryName e.name ∧ e.name ∉ namesIn rest) ∧ e.holdsTree = true ∧ isTree rest = true := by
  rw [isTree, Bool.and_eq_true, Bool.and_eq_true, decide_eq_true_eq, and_assoc]

/-- The test tells trees. -/
theorem isTree_iff {listing : List Entry} : isTree listing = true ↔ IsTree listing := by
  constructor
  · intro h
    match listing with
    | [] => exact .nil
    | .file n contents :: rest =>
      obtain ⟨⟨hn, fresh⟩, _, hrest⟩ := isTree_cons.mp h
      exact .file hn fresh (isTree_iff.mp hrest)
    | .link n target :: rest =>
      obtain ⟨⟨hn, fresh⟩, _, hrest⟩ := isTree_cons.mp h
      exact .link hn fresh (isTree_iff.mp hrest)
    | .directory n inner :: rest =>
      obtain ⟨⟨hn, fresh⟩, hinner, hrest⟩ := isTree_cons.mp h
      exact .directory hn fresh (isTree_iff.mp hinner) (isTree_iff.mp hrest)
  · intro h
    induction h with
    | nil => rfl
    | file hn fresh _ ih => exact isTree_cons.mpr ⟨⟨hn, fresh⟩, rfl, ih⟩
    | link hn fresh _ ih => exact isTree_cons.mpr ⟨⟨hn, fresh⟩, rfl, ih⟩
    | directory hn fresh _ _ ih ih' => exact isTree_cons.mpr ⟨⟨hn, fresh⟩, ih, ih'⟩

instance (listing : List Entry) : Decidable (IsTree listing) :=
  decidable_of_iff _ isTree_iff

/-! ### What a name leads to -/

theorem entryOf?_cons (e : Entry) (rest : List Entry) (n : Bytes) :
    entryOf? (e :: rest) n = if e.name = n then some e else entryOf? rest n := by
  rw [entryOf?, List.find?_cons]
  by_cases h : e.name = n
  · rw [beq_iff_eq.mpr h, if_pos h]
  · rw [beq_eq_false_iff_ne.mpr h, if_neg h]
    rfl

theorem mem_of_entryOf? {listing : List Entry} {n : Bytes} {e : Entry}
    (h : entryOf? listing n = some e) : e ∈ listing ∧ e.name = n :=
  ⟨List.mem_of_find?_eq_some h, eq_of_beq (List.find?_some (p := fun e : Entry => e.name == n) h)⟩

theorem entryOf?_eq_none {listing : List Entry} {n : Bytes} (h : n ∉ namesIn listing) :
    entryOf? listing n = none := by
  rw [entryOf?, List.find?_eq_none]
  intro e he hn
  exact h (List.mem_map.mpr ⟨e, he, eq_of_beq hn⟩)

/-! ### What a location leads to -/

/-- What an entry is, without what a directory lists. -/
inductive Kind where
  | file (contents : Bytes)
  | link (target : Bytes)
  | directory
  deriving DecidableEq

/-- What an entry is. -/
def Entry.kind : Entry → Kind
  | .file _ contents => .file contents
  | .link _ target => .link target
  | .directory _ _ => .directory

/-- What a location below a listing leads to.  All names of it but the last
one have to be directories: no link is passed on the way. -/
def kindBelow? (listing : List Entry) : Location → Option Kind
  | [] => none
  | [n] => (entryOf? listing n).map Entry.kind
  | n :: m :: rest =>
    match entryOf? listing n with
    | some (.directory _ inner) => kindBelow? inner (m :: rest)
    | _ => none

@[simp] theorem kindBelow?_nil_left (l : Location) : kindBelow? [] l = none := by
  match l with
  | [] => rfl
  | [_] => rfl
  | _ :: _ :: _ => rfl

/-- The first name of a location decides which entry it leads through. -/
theorem kindBelow?_cons (e : Entry) (rest : List Entry) (n : Bytes) (l : Location) :
    kindBelow? (e :: rest) (n :: l) = if e.name = n then kindBelow? [e] (n :: l)
      else kindBelow? rest (n :: l) := by
  have alone : entryOf? [e] n = if e.name = n then some e else none := entryOf?_cons e [] n
  by_cases h : e.name = n
  · have here : entryOf? (e :: rest) n = some e := by rw [entryOf?_cons, if_pos h]
    rw [if_pos h] at alone ⊢
    cases l with
    | nil => rw [kindBelow?, kindBelow?, here, alone]
    | cons m l => rw [kindBelow?, kindBelow?, here, alone]
  · have past : entryOf? (e :: rest) n = entryOf? rest n := by rw [entryOf?_cons, if_neg h]
    rw [if_neg h]
    cases l with
    | nil => rw [kindBelow?, kindBelow?, past]
    | cons m l => rw [kindBelow?, kindBelow?, past]

/-- Below a directory a location leads on. -/
theorem kindBelow?_directory (n : Bytes) (inner : List Entry) {l : Location} (h : l ≠ []) :
    kindBelow? [.directory n inner] (n :: l) = kindBelow? inner l := by
  cases l with
  | nil => exact absurd rfl h
  | cons m l =>
    have here : entryOf? [.directory n inner] n = some (.directory n inner) := by
      rw [entryOf?_cons]
      exact if_pos rfl
    simp only [kindBelow?, here]

/-- A single entry is at its name. -/
theorem kindBelow?_singleton (e : Entry) : kindBelow? [e] [e.name] = some e.kind := by
  rw [kindBelow?, entryOf?_cons, if_pos rfl]
  rfl

/-- Nothing lies below a file or a link. -/
theorem kindBelow?_leaf {e : Entry} (leaf : e.kind ≠ .directory) {n m : Bytes} (l : Location) :
    kindBelow? [e] (n :: m :: l) = none := by
  rw [kindBelow?]
  split
  · rename_i k inner h
    obtain ⟨mem, _⟩ := mem_of_entryOf? h
    rw [List.mem_singleton] at mem
    exact absurd (by rw [← mem]; rfl) leaf
  · rfl

/-- A location leads to something only through a name of the listing. -/
theorem head_mem_of_kindBelow? {listing : List Entry} {n : Bytes} {l : Location} {k : Kind}
    (h : kindBelow? listing (n :: l) = some k) : n ∈ namesIn listing := by
  apply Classical.not_not.mp
  intro fresh
  have nothing := entryOf?_eq_none fresh
  cases l with
  | nil =>
    rw [kindBelow?, nothing] at h
    cases h
  | cons m l =>
    rw [kindBelow?, nothing] at h
    cases h

/-- What a tree of one more entry has at a location: what it has through that
entry, and what it had before. -/
theorem kindBelow?_cons_eq_some_iff {e : Entry} {rest : List Entry} (fresh : e.name ∉ namesIn rest)
    {l : Location} {k : Kind} :
    kindBelow? (e :: rest) l = some k ↔ kindBelow? [e] l = some k ∨ kindBelow? rest l = some k := by
  cases l with
  | nil => exact ⟨fun h => .inl h, fun h => h.elim id id⟩
  | cons n l =>
    rw [kindBelow?_cons]
    by_cases h : e.name = n
    · rw [if_pos h]
      refine ⟨.inl, ?_⟩
      rintro (first | later)
      · exact first
      · exact absurd (h ▸ head_mem_of_kindBelow? later) fresh
    · rw [if_neg h]
      refine ⟨.inr, ?_⟩
      rintro (first | later)
      · exact absurd (List.mem_singleton.mp (head_mem_of_kindBelow? first)).symm h
      · exact later

/-! ### Directories on the way -/

theorem listingAt?_cons_eq_some {listing d : List Entry} {n : Bytes} {here : Location}
    (h : listingAt? listing (n :: here) = some d) :
    ∃ inner, entryOf? listing n = some (.directory n inner) ∧ listingAt? inner here = some d := by
  rw [listingAt?] at h
  split at h
  · rename_i m inner found
    have name : m = n := (mem_of_entryOf? found).2
    exact ⟨inner, name ▸ found, h⟩
  · cases h

theorem IsTree.of_listingAt? {listing d : List Entry} {here : Location} (h : IsTree listing)
    (place : listingAt? listing here = some d) : IsTree d := by
  induction here generalizing listing with
  | nil =>
    cases place
    exact h
  | cons n here ih =>
    obtain ⟨inner, found, rest⟩ := listingAt?_cons_eq_some place
    exact ih (h.inner_of_mem (mem_of_entryOf? found).1) rest

/-- A location goes on from a directory. -/
theorem kindBelow?_append {listing d : List Entry} {here : Location}
    (place : listingAt? listing here = some d) {l : Location} (h : l ≠ []) :
    kindBelow? listing (here ++ l) = kindBelow? d l := by
  induction here generalizing listing with
  | nil =>
    cases place
    rfl
  | cons n here ih =>
    obtain ⟨inner, found, rest⟩ := listingAt?_cons_eq_some place
    rw [← ih rest]
    obtain ⟨m, l', e⟩ := List.exists_cons_of_ne_nil (List.append_ne_nil_of_right_ne_nil here h)
    rw [List.cons_append, e, kindBelow?, found]

/-- A location below a listing leads to a directory if something is listed
there. -/
theorem kindBelow?_eq_directory_iff {listing : List Entry} {n : Bytes} {l : Location} :
    kindBelow? listing (n :: l) = some .directory ↔
      ∃ d, listingAt? listing (n :: l) = some d := by
  induction l generalizing listing n with
  | nil =>
    rw [kindBelow?, listingAt?]
    cases entryOf? listing n with
    | none => simp
    | some e =>
      cases e with
      | file _ _ => simp [Entry.kind]
      | link _ _ => simp [Entry.kind]
      | directory _ inner => simp [Entry.kind]
  | cons m l ih =>
    rw [kindBelow?, listingAt?]
    cases entryOf? listing n with
    | none => simp
    | some e =>
      cases e with
      | file _ _ => simp
      | link _ _ => simp
      | directory _ inner => exact ih

/-- Whatever a location leads to, all that is passed on the way is a
directory. -/
theorem kindBelow?_of_isPrefix {listing : List Entry} {above below : Location} {k : Kind}
    (h : kindBelow? listing (above ++ below) = some k) (ha : above ≠ []) (hb : below ≠ []) :
    kindBelow? listing above = some .directory := by
  induction above generalizing listing with
  | nil => exact absurd rfl ha
  | cons n above ih =>
    obtain ⟨m, l, e⟩ := List.exists_cons_of_ne_nil (List.append_ne_nil_of_right_ne_nil above hb)
    rw [List.cons_append, e, kindBelow?] at h
    split at h
    · rename_i name inner found
      cases above with
      | nil =>
        rw [kindBelow?, found]
        rfl
      | cons a above =>
        rw [kindBelow?, found]
        exact ih (e ▸ h) (List.cons_ne_nil a above)
    · cases h

/-- The names on the way are names of entries. -/
theorem IsTree.isEntryName_of_kindBelow? {listing : List Entry} {l : Location} {k : Kind}
    (tree : IsTree listing) (h : kindBelow? listing l = some k) : ∀ n ∈ l, IsEntryName n := by
  induction l generalizing listing with
  | nil => exact fun n hn => absurd hn List.not_mem_nil
  | cons n l ih =>
    obtain ⟨e, he, rfl⟩ := List.mem_map.mp (head_mem_of_kindBelow? h)
    refine List.forall_mem_cons.mpr ⟨tree.isEntryName e he, ?_⟩
    cases l with
    | nil => exact fun n hn => absurd hn List.not_mem_nil
    | cons m l =>
      rw [kindBelow?] at h
      split at h
      · rename_i name inner found
        exact ih (tree.inner_of_mem (mem_of_entryOf? found).1) h
      · cases h

/-! ### All locations -/

mutual

/-- The locations at an entry and below it, with what they lead to. -/
def Entry.census : Entry → List (Location × Kind)
  | .directory n inner => ([n], .directory) :: (census inner).map fun (l, k) => (n :: l, k)
  | e => [([e.name], e.kind)]

/-- The locations below a listing, with what they lead to. -/
def census : List Entry → List (Location × Kind)
  | [] => []
  | e :: rest => e.census ++ census rest

end

theorem Entry.self_mem_census (e : Entry) : ([e.name], e.kind) ∈ e.census := by
  cases e with
  | directory n inner => exact List.mem_cons_self ..
  | _ => exact List.mem_singleton_self _

theorem mem_census_of_mem {listing : List Entry} {e : Entry} (mem : e ∈ listing)
    {place : Location × Kind} (h : place ∈ e.census) : place ∈ census listing := by
  induction listing with
  | nil => cases mem
  | cons d rest ih =>
    rw [census, List.mem_append]
    rcases List.mem_cons.mp mem with rfl | mem
    · exact .inl h
    · exact .inr (ih mem)

/-- No location is left out. -/
theorem mem_census_of_kindBelow? {listing : List Entry} {l : Location} {k : Kind}
    (h : kindBelow? listing l = some k) : (l, k) ∈ census listing := by
  induction l generalizing listing with
  | nil => cases h
  | cons n l ih =>
    cases l with
    | nil =>
      obtain ⟨e, entry, rfl⟩ := Option.map_eq_some_iff.mp h
      obtain ⟨mem, rfl⟩ := mem_of_entryOf? entry
      exact mem_census_of_mem mem e.self_mem_census
    | cons m l =>
      rw [kindBelow?] at h
      split at h
      · rename_i name inner entry
        obtain ⟨mem, rfl⟩ := mem_of_entryOf? entry
        apply mem_census_of_mem mem
        exact List.mem_cons_of_mem _ (List.mem_map.mpr ⟨(m :: l, k), ih h, rfl⟩)
      · cases h

/-! ### Other orders -/

/-- The same entries in another order, at every level. -/
inductive Reordered : List Entry → List Entry → Prop
  | nil : Reordered [] []
  | cons {rest rest'} (e : Entry) : Reordered rest rest' → Reordered (e :: rest) (e :: rest')
  | inner {inner inner' rest} (n : Bytes) : Reordered inner inner' →
      Reordered (.directory n inner :: rest) (.directory n inner' :: rest)
  | swap (d e : Entry) (rest) : Reordered (d :: e :: rest) (e :: d :: rest)
  | trans {a b c} : Reordered a b → Reordered b c → Reordered a c

namespace Reordered

theorem of_perm {listing listing' : List Entry} (h : listing.Perm listing') :
    Reordered listing listing' := by
  induction h with
  | nil => exact .nil
  | cons e _ ih => exact .cons e ih
  | swap d e rest => exact .swap e d rest
  | trans _ _ ih ih' => exact .trans ih ih'

theorem names_perm {listing listing' : List Entry} (h : Reordered listing listing') :
    (namesIn listing).Perm (namesIn listing') := by
  induction h with
  | nil => exact .nil
  | cons e _ ih => exact ih.cons e.name
  | inner n _ _ => exact .refl _
  | swap d e rest => exact .swap e.name d.name (namesIn rest)
  | trans _ _ ih ih' => exact ih.trans ih'

theorem isTree {listing listing' : List Entry} (h : Reordered listing listing')
    (tree : IsTree listing) : IsTree listing' := by
  induction h with
  | nil => exact tree
  | cons e same ih =>
    refine tree.cons_of_cons (fun mem => ?_) (ih tree.tail)
    exact tree.head.2 (same.names_perm.mem_iff.mpr mem)
  | inner n _ ih =>
    have inner := tree.inner_of_mem (List.mem_cons_self ..)
    exact .directory tree.head.1 tree.head.2 (ih inner) tree.tail
  | swap d e rest =>
    obtain ⟨hde, hd⟩ := not_or.mp (mt List.mem_cons.mpr tree.head.2)
    have he := tree.tail.head.2
    refine tree.tail.cons_of_cons (fun mem => ?_) (tree.cons_of_cons hd tree.tail.tail)
    rcases List.mem_cons.mp mem with same | mem
    · exact hde same.symm
    · exact he mem
  | trans _ _ ih ih' => exact ih' (ih tree)

/-- Locations lead to the same in every order. -/
theorem kindBelow?_eq {listing listing' : List Entry} (h : Reordered listing listing')
    (tree : IsTree listing) : kindBelow? listing = kindBelow? listing' := by
  induction h with
  | nil => rfl
  | @cons rest rest' e _ ih =>
    funext l
    cases l with
    | nil => rfl
    | cons n l => rw [kindBelow?_cons e rest, kindBelow?_cons e rest', ih tree.tail]
  | @inner inner inner' rest n _ ih =>
    -- only a location that goes on behind the name needs the hypothesis
    have same := ih (tree.inner_of_mem (List.mem_cons_self ..))
    funext l
    cases l with
    | nil => rfl
    | cons m l =>
      rw [kindBelow?_cons (.directory n inner) rest, kindBelow?_cons (.directory n inner') rest]
      show (if n = m then _ else _) = if n = m then _ else _
      by_cases e : n = m
      · rw [if_pos e, if_pos e]
        subst e
        cases l with
        | nil =>
          have one := kindBelow?_singleton (.directory n inner)
          exact one.trans (kindBelow?_singleton (.directory n inner')).symm
        | cons k l =>
          have more := List.cons_ne_nil k l
          rw [kindBelow?_directory n inner more, kindBelow?_directory n inner' more, same]
      · rw [if_neg e, if_neg e]
  | swap d e rest =>
    -- a name leads to one of the two at most, so it does not matter which is asked first
    have apart : d.name ≠ e.name := fun same => tree.head.2 (List.mem_cons.mpr (.inl same))
    funext l
    cases l with
    | nil => rfl
    | cons n l =>
      rw [kindBelow?_cons d (e :: rest), kindBelow?_cons e rest, kindBelow?_cons e (d :: rest),
        kindBelow?_cons d rest]
      by_cases hd : d.name = n
      · rw [if_pos hd, if_neg fun he => apart (hd.trans he.symm), if_pos hd]
      · rw [if_neg hd, if_neg hd]
  | trans first _ ih ih' => exact (ih tree).trans (ih' (first.isTree tree))

end Reordered

end AssetAudit

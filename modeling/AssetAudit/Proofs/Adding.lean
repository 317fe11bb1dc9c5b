/-
AssetAudit/Proofs/Adding.lean

A tree with one file more.

`AddsFile top top' place contents` says what is there in the larger tree: a file
at a place where nothing was, and at all other locations the same as before.
Putting an entry of a new name into the listing of a directory makes such a tree
(`AddsFile.of_changeAt`).

What leads to a directory in the smaller tree leads there in the larger one
(`FileSystem.lookup_directory_of_kept`), and what is added below it is added to
what it lists (`AddsFile.of_listingAt?`).
-/
import AssetAudit.FileSystem.Edit
import AssetAudit.Proofs.Lookup

namespace AssetAudit

/-- The second tree has a file where nothing was in the first one, and is the
same elsewhere. -/
structure AddsFile (top top' : List Entry) (place : Location) (contents : Bytes) : Prop where
  fresh : kindBelow? top place = none
  added : kindBelow? top' place = some (.file contents)
  others : ∀ l, l ≠ place → kindBelow? top' l = kindBelow? top l

namespace AddsFile

variable {top top' d d' : List Entry} {place here l : Location} {contents : Bytes} {k : Kind}

/-- What is there is there still. -/
theorem kept (h : AddsFile top top' place contents) (there : kindBelow? top l = some k) :
    kindBelow? top' l = some k := by
  have other : l ≠ place := by
    rintro rfl
    rw [h.fresh] at there
    cases there
  rw [h.others l other, there]

/-- What is no file was there before. -/
theorem kept_iff (h : AddsFile top top' place contents) (other : k ≠ .file contents) :
    kindBelow? top' l = some k ↔ kindBelow? top l = some k := by
  by_cases same : l = place
  · rw [same, h.fresh, h.added]
    exact iff_of_false (fun e => other (Option.some.inj e).symm) nofun
  · rw [h.others l same]

/-- A file there now is the new one or was there before. -/
theorem file_iff (h : AddsFile top top' place contents) :
    (∃ c, kindBelow? top' l = some (.file c)) ↔
      (∃ c, kindBelow? top l = some (.file c)) ∨ l = place := by
  by_cases same : l = place
  · rw [same, h.added]
    exact iff_of_true ⟨contents, rfl⟩ (.inr rfl)
  · rw [h.others l same]
    exact (or_iff_left same).symm

/-- Below a directory the same file is added to what it lists. -/
theorem of_listingAt? (h : AddsFile top top' (here ++ l) contents) (below : l ≠ [])
    (place : listingAt? top here = some d) (place' : listingAt? top' here = some d') :
    AddsFile d d' l contents where
  fresh := by rw [← kindBelow?_append place below, h.fresh]
  added := by rw [← kindBelow?_append place' below, h.added]
  others := by
    intro m other
    cases m with
    | nil => rfl
    | cons n m =>
      have more := List.cons_ne_nil n m
      rw [← kindBelow?_append place more, ← kindBelow?_append place' more,
        h.others _ fun e => other (List.append_cancel_left e)]

/-! ### Putting an entry -/

theorem kindBelow?_of_entryOf? {listing other : List Entry} {n : Bytes} {l : Location}
    (same : entryOf? other n = entryOf? listing n) :
    kindBelow? other (n :: l) = kindBelow? listing (n :: l) := by
  cases l with
  | nil => rw [kindBelow?, kindBelow?, same]
  | cons m l => rw [kindBelow?, kindBelow?, same]

theorem putEntry_of_fresh {e : Entry} {listing : List Entry} (fresh : e.name ∉ namesIn listing) :
    putEntry e listing = listing ++ [e] := by
  induction listing with
  | nil => rfl
  | cons d rest ih =>
    obtain ⟨other, fresh⟩ := not_or.mp (mt List.mem_cons.mpr fresh)
    rw [putEntry, if_neg (Ne.symm other), ih fresh, List.cons_append]

/-- A file of a new name is put into a listing. -/
theorem of_putEntry {n : Bytes} {listing : List Entry} (fresh : n ∉ namesIn listing) :
    AddsFile listing (putEntry (.file n contents) listing) [n] contents := by
  have before := entryOf?_eq_none fresh
  have entry (m : Bytes) : entryOf? (putEntry (.file n contents) listing) m =
      (entryOf? listing m).or (entryOf? [.file n contents] m) := by
    rw [putEntry_of_fresh (e := .file n contents) fresh]
    exact List.find?_append
  have self : entryOf? (putEntry (.file n contents) listing) n =
      some (.file n contents) := by
    rw [entry, before, entryOf?_cons, Option.none_or]
    exact if_pos rfl
  refine ⟨?_, ?_, ?_⟩
  · rw [kindBelow?, before]
    rfl
  · rw [kindBelow?, self]
    rfl
  · intro l other
    cases l with
    | nil => rfl
    | cons m l =>
      by_cases same : m = n
      · subst same
        -- nothing lies below the file, as nothing lay below its name
        obtain ⟨a, l, rfl⟩ := List.exists_cons_of_ne_nil fun e => other (congrArg _ e)
        rw [kindBelow?, kindBelow?, self, before]
      · have elsewhere : (Entry.file n contents).name ≠ m := Ne.symm same
        apply kindBelow?_of_entryOf?
        rw [entry, entryOf?_cons, if_neg elsewhere]
        exact Option.or_none

/-- What is added in a directory is added to the tree that it is in. -/
theorem of_directory {n : Bytes} {listing listing' inner inner' : List Entry}
    (h : AddsFile inner inner' place contents)
    (entry : entryOf? listing n = some (.directory n inner))
    (entry' : entryOf? listing' n = some (.directory n inner'))
    (others : ∀ m, m ≠ n → entryOf? listing' m = entryOf? listing m) :
    AddsFile listing listing' (n :: place) contents := by
  have inside : listingAt? listing [n] = some inner := by
    rw [listingAt?, entry]
    rfl
  have inside' : listingAt? listing' [n] = some inner' := by
    rw [listingAt?, entry']
    rfl
  have below {l : Location} (more : l ≠ []) : kindBelow? listing (n :: l) = kindBelow? inner l ∧
      kindBelow? listing' (n :: l) = kindBelow? inner' l :=
    ⟨kindBelow?_append inside more, kindBelow?_append inside' more⟩
  have more : place ≠ [] := by
    rintro rfl
    cases h.added
  refine ⟨?_, ?_, ?_⟩
  · rw [(below more).1, h.fresh]
  · rw [(below more).2, h.added]
  · intro l other
    cases l with
    | nil => rfl
    | cons m l =>
      by_cases same : m = n
      · subst same
        cases l with
        | nil =>
          rw [kindBelow?, kindBelow?, entry, entry']
          rfl
        | cons a l =>
          obtain ⟨here, here'⟩ := below (List.cons_ne_nil a l)
          rw [here, here', h.others _ fun e => other (congrArg _ e)]
      · exact kindBelow?_of_entryOf? (others m same)

/-- What a change further down makes of an entry. -/
def changeIn (change : List Entry → List Entry) (n : Bytes) (rest : Location) : Entry → Entry
  | .directory m inner =>
    if m = n then .directory m (changeAt change rest inner) else .directory m inner
  | e => e

theorem changeIn_name (change : List Entry → List Entry) (n : Bytes) (rest : Location)
    (e : Entry) : (changeIn change n rest e).name = e.name := by
  cases e with
  | directory m inner =>
    rw [changeIn]
    split <;> rfl
  | _ => rfl

theorem changeIn_of_ne {change : List Entry → List Entry} {n : Bytes} {rest : Location}
    {e : Entry} (other : e.name ≠ n) : changeIn change n rest e = e := by
  cases e with
  | directory m inner => exact if_neg other
  | _ => rfl

theorem entryOf?_changeAt (change : List Entry → List Entry) (n : Bytes) (rest : Location)
    (listing : List Entry) (m : Bytes) :
    entryOf? (changeAt change (n :: rest) listing) m =
      (entryOf? listing m).map (changeIn change n rest) := by
  have names : ((·.name == m) ∘ changeIn change n rest) = (·.name == m) := by
    funext e
    show ((changeIn change n rest e).name == m) = _
    rw [changeIn_name]
  have each : changeAt change (n :: rest) listing =
      listing.map (changeIn change n rest) := by
    rw [changeAt]
    apply List.map_congr_left
    intro e _
    cases e <;> rfl
  rw [each, entryOf?, List.find?_map, names]
  rfl

/-- **A file is added by putting it into the listing of a directory**, under a
name that is not there. -/
theorem of_changeAt {n : Bytes} (place : listingAt? top here = some d) (fresh : n ∉ namesIn d) :
    AddsFile top (changeAt (putEntry (.file n contents)) here top)
      (here ++ [n]) contents := by
  induction here generalizing top with
  | nil =>
    cases place
    exact of_putEntry fresh
  | cons a here ih =>
    obtain ⟨inner, entry, rest⟩ := listingAt?_cons_eq_some place
    apply (ih rest).of_directory entry
    · rw [entryOf?_changeAt, entry, Option.map_some, changeIn, if_pos rfl]
    · intro m other
      rw [entryOf?_changeAt]
      cases found : entryOf? top m with
      | none => rfl
      | some e => rw [Option.map_some, changeIn_of_ne ((mem_of_entryOf? found).2 ▸ other)]

end AddsFile

/-! ### Following a path -/

section Kept

variable {top top' : List Entry}

theorem exists_listingAt?_of_kept
    (kept : ∀ l k, kindBelow? top l = some k → kindBelow? top' l = some k) {here : Location}
    {d : List Entry} (h : listingAt? top here = some d) : ∃ d', listingAt? top' here = some d' := by
  cases here with
  | nil => exact ⟨top', rfl⟩
  | cons n here =>
    rw [← kindBelow?_eq_directory_iff]
    exact kept _ _ (kindBelow?_eq_directory_iff.mpr ⟨d, h⟩)

/-- A segment leads to the same in a larger tree, unless it leads nowhere or to
where a path has to end. -/
theorem moveAt_of_kept
    (kept : ∀ l k, kindBelow? top l = some k → kindBelow? top' l = some k) (here : Location)
    (s : Bytes) : moveAt top' here s = moveAt top here s ∨
      (∃ p e, moveAt top here s = .last p e) ∨ ∃ e, moveAt top here s = .stop e := by
  rcases moveAt_cases here s with ⟨next, on⟩ | long | found
  · exact .inl ((on top').trans (on top).symm)
  · exact .inr (.inr ⟨_, long top⟩)
  rw [found, found]
  cases listed : listingAt? top here with
  | none => exact .inr (.inr ⟨_, rfl⟩)
  | some d =>
    cases entry : entryOf? d s with
    | none =>
      rw [Option.map_some, entry]
      exact .inr (.inl ⟨_, _, rfl⟩)
    | some e =>
      -- the name leads to an entry of the same kind
      obtain ⟨d', listed'⟩ := exists_listingAt?_of_kept kept listed
      have there : kindBelow? top (here ++ [s]) = some e.kind := by
        rw [kindBelow?_append listed (List.cons_ne_nil s []), kindBelow?, entry]
        rfl
      have same : kindBelow? d' [s] = kindBelow? d [s] := by
        rw [← kindBelow?_append listed' (List.cons_ne_nil s []), kept _ _ there, ← there,
          kindBelow?_append listed (List.cons_ne_nil s [])]
      rw [listed', Option.map_some, Option.map_some]
      exact .inl (moveTo_of_kind same)

/-- What holds of the links on the way holds of the whole way. -/
theorem followSegments_directory_of_kept
    (kept : ∀ l k, kindBelow? top l = some k → kindBelow? top' l = some k) {last : LastLink}
    {there : Location}
    {onLink onLink' : Location → List Bytes → Except LookupError Place}
    (links : ∀ here segments d, onLink here segments = .ok (.directory there d) →
      ∃ d', onLink' here segments = .ok (.directory there d'))
    {here : Location} {segments : List Bytes} {d : List Entry}
    (h : followSegments top last onLink here segments = .ok (.directory there d)) :
    ∃ d', followSegments top' last onLink' here segments = .ok (.directory there d') := by
  induction segments generalizing here with
  | nil =>
    rw [followSegments] at h ⊢
    split at h
    · rename_i listing listed
      cases h
      obtain ⟨d', listed'⟩ := exists_listingAt?_of_kept kept listed
      rw [listed']
      exact ⟨d', rfl⟩
    · cases h
  | cons s rest ih =>
    rw [followSegments] at h ⊢
    rcases moveAt_of_kept kept here s with same | ⟨p, e, move⟩ | ⟨e, move⟩
    · rw [same]
      cases move : moveAt top here s with
      | on next =>
        rw [move] at h
        exact ih h
      | last p e =>
        rw [move] at h
        exact absurd h (ne_directory_of_moveAt_last move rest)
      | stop e =>
        rw [move] at h
        cases h
      | link target =>
        rw [move] at h
        dsimp only at h ⊢
        split at h
        · cases h
        rename_i replaced
        split at h
        · cases h
        rename_i written
        rw [if_neg replaced, if_neg written]
        exact links _ _ _ h
    · rw [move] at h
      exact absurd h (ne_directory_of_moveAt_last move rest)
    · rw [move] at h
      cases h

theorem follow_directory_of_kept
    (kept : ∀ l k, kindBelow? top l = some k → kindBelow? top' l = some k) {last : LastLink}
    {links : Nat} {here there : Location} {segments : List Bytes} {d : List Entry}
    (h : follow top last links here segments = .ok (.directory there d)) :
    ∃ d', follow top' last links here segments = .ok (.directory there d') := by
  induction links generalizing here segments d with
  | zero =>
    rw [follow] at h ⊢
    refine followSegments_directory_of_kept kept (fun _ _ _ past => ?_) h
    cases past
  | succ links ih =>
    rw [follow] at h ⊢
    exact followSegments_directory_of_kept kept (fun _ _ _ => ih) h

/-- A directory that is found is found in a larger tree too, at the same
location. -/
theorem FileSystem.lookup_directory_of_kept {w : Location}
    (kept : ∀ l k, kindBelow? top l = some k → kindBelow? top' l = some k) {last : LastLink}
    {path : Bytes} {here : Location} {d : List Entry}
    (h : lookup ⟨top, w⟩ last path = .ok (.directory here d)) :
    ∃ d', lookup ⟨top', w⟩ last path = .ok (.directory here d') := by
  obtain ⟨valid, written, short⟩ := valid_of_lookup h
  obtain ⟨d', followed⟩ := follow_directory_of_kept kept (follow_of_lookup h)
  refine ⟨d', ?_⟩
  rw [lookup, locate_of_valid valid written short, followed]

end Kept

end AssetAudit

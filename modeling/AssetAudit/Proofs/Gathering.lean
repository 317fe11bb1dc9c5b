/-
AssetAudit/Proofs/Gathering.lean

What a catalogue holds, said without its steps.

Whatever is added to a catalogue is a *part*: a bundle name with some files
and some references.  Added one after the other, parts are gathered by name:

* `mergedUnder b parts` — everything that the parts of the name `b` bring, in
  the order of the parts;
* `gathered parts` — one asset for each name, in the order in which the names
  were first met.

Main result: adding the parts to the empty catalogue, in turn, leaves exactly
`gathered parts` (`assets_ofParts`).  The step is `addTo_gathered`, and the
induction runs over the parts from the last one backwards.
-/
import AssetAudit.Asset.Catalogue

namespace AssetAudit

/-! ### Parts gathered by name -/

/-- Everything that the parts of the name `b` bring, in the order of the
parts. -/
def mergedUnder (b : Text) (parts : List Asset) : Asset where
  bundle := b
  files := (parts.filter (·.bundle = b)).flatMap (·.files)
  references := (parts.filter (·.bundle = b)).flatMap (·.references)

/-- One asset for each name of a part, in the order in which the names were
first met. -/
def gathered (parts : List Asset) : List Asset :=
  (parts.map (·.bundle)).eraseDups.map fun b => mergedUnder b parts

@[simp] theorem mergedUnder_bundle (b : Text) (parts : List Asset) :
    (mergedUnder b parts).bundle = b := rfl

/-- A part behind the others reaches the asset of its name, and no other. -/
theorem mergedUnder_append (b : Text) (parts : List Asset) (p : Asset) :
    mergedUnder b (parts ++ [p]) =
      if b = p.bundle then (mergedUnder b parts).append p.files p.references
      else mergedUnder b parts := by
  by_cases h : b = p.bundle
  · rw [if_pos h]
    subst h
    simp [mergedUnder, Asset.append]
  · rw [if_neg h]
    have h' : ¬ p.bundle = b := fun e => h e.symm
    simp [mergedUnder, h']

/-- Nothing is found under a name that no part has. -/
theorem mergedUnder_of_not_mem {b : Text} {parts : List Asset}
    (h : b ∉ parts.map (·.bundle)) : mergedUnder b parts = ⟨b, [], []⟩ := by
  have none : parts.filter (·.bundle = b) = [] := by
    rw [List.filter_eq_nil_iff]
    intro p hp e
    exact h (List.mem_map.mpr ⟨p, hp, of_decide_eq_true e⟩)
  simp only [mergedUnder, none, List.flatMap_nil]

theorem mem_files_mergedUnder {b f : Text} {parts : List Asset} :
    f ∈ (mergedUnder b parts).files ↔ ∃ p ∈ parts, p.bundle = b ∧ f ∈ p.files := by
  simp [mergedUnder, and_assoc]

theorem mem_references_mergedUnder {b : Text} {r : Bytes} {parts : List Asset} :
    r ∈ (mergedUnder b parts).references ↔ ∃ p ∈ parts, p.bundle = b ∧ r ∈ p.references := by
  simp [mergedUnder, and_assoc]

theorem mem_gathered {parts : List Asset} {a : Asset} :
    a ∈ gathered parts ↔ a.bundle ∈ parts.map (·.bundle) ∧ a = mergedUnder a.bundle parts := by
  rw [gathered, List.mem_map]
  constructor
  · rintro ⟨b, hb, rfl⟩
    exact ⟨List.mem_eraseDups.mp hb, rfl⟩
  · rintro ⟨hb, e⟩
    exact ⟨a.bundle, List.mem_eraseDups.mpr hb, e.symm⟩

/-! ### One addition -/

/-- An addition to assets that are told apart by their names: the asset of the
name grows, or a new one goes to the end. -/
theorem addTo_map {f : Text → Asset} (hf : ∀ b, (f b).bundle = b) (b : Text) (fs : List Text)
    (rs : List Bytes) {names : List Text} (distinct : names.Nodup) :
    addTo b fs rs ((names.map f).map Asset.entry) =
      (if b ∈ names then names.map fun n => if n = b then (f n).append fs rs else f n
      else names.map f ++ [⟨b, fs, rs⟩]).map Asset.entry := by
  induction names with
  | nil => rfl
  | cons n names ih =>
    obtain ⟨fresh, distinct⟩ := List.nodup_cons.mp distinct
    simp only [List.map_cons, Asset.entry, addTo, hf]
    by_cases h : n = b
    · subst h
      -- the name does not come again, so no other asset grows
      have others : names.map (fun m => if m = n then (f m).append fs rs else f m) =
          names.map f := by
        apply List.map_congr_left
        intro m hm
        rw [if_neg fun e : m = n => fresh (e ▸ hm)]
      rw [if_pos rfl, if_pos (List.mem_cons_self ..), if_pos rfl, others, List.map_cons]
      simp only [Asset.entry, Asset.append_bundle, hf]
    · have h' : ¬ b = n := fun e => h e.symm
      rw [if_neg h, ih distinct]
      by_cases m : b ∈ names
      · rw [if_pos m, if_pos (List.mem_cons_of_mem _ m), if_neg h, List.map_cons]
        simp only [Asset.entry, hf]
      · rw [if_neg m, if_neg (by simp [h', m]), List.cons_append, List.map_cons]
        simp only [Asset.entry, hf]

theorem nodup_eraseDups (names : List Text) : names.eraseDups.Nodup := by
  -- the recursion goes on with a filtered list, so the induction is on the length
  generalize hn : names.length = k
  induction k using Nat.strongRecOn generalizing names with
  | ind k ih =>
    cases names with
    | nil => exact List.nodup_nil
    | cons n names =>
      rw [List.eraseDups_cons, List.nodup_cons]
      refine ⟨?_, ih _ ?_ _ rfl⟩
      · intro h
        simp at h
      · rw [← hn]
        exact Nat.lt_succ_of_le (List.length_filter_le _ _)

/-- A name that was met is not met anew. -/
theorem eraseDups_append_singleton (names : List Text) (b : Text) :
    (names ++ [b]).eraseDups =
      if b ∈ names then names.eraseDups else names.eraseDups ++ [b] := by
  rw [List.eraseDups_append]
  by_cases h : b ∈ names
  · have nothing : [b].removeAll names = [] := by simp [List.removeAll, h]
    rw [if_pos h, nothing, List.eraseDups_nil, List.append_nil]
  · have all : [b].removeAll names = [b] := by simp [List.removeAll, h]
    rw [if_neg h, all, List.eraseDups_cons, List.filter_nil, List.eraseDups_nil]

/-- Adding a part to what other parts left is gathering it with them. -/
theorem addTo_gathered (parts : List Asset) (p : Asset) :
    addTo p.bundle p.files p.references ((gathered parts).map Asset.entry) =
      (gathered (parts ++ [p])).map Asset.entry := by
  have step := addTo_map (mergedUnder_bundle · parts) p.bundle p.files p.references
    (nodup_eraseDups (parts.map (·.bundle)))
  rw [gathered, step, gathered, List.map_append, List.map_singleton, eraseDups_append_singleton]
  congr 1
  simp only [List.mem_eraseDups]
  by_cases h : p.bundle ∈ parts.map (·.bundle)
  · -- a known name: the names stay, and its asset grows
    rw [if_pos h, if_pos h]
    apply List.map_congr_left
    intro n _
    rw [mergedUnder_append]
  · -- a new name: its asset goes behind the others, which stay
    rw [if_neg h, if_neg h, List.map_append, List.map_singleton]
    congr 1
    · apply List.map_congr_left
      intro n hn
      rw [mergedUnder_append, if_neg fun e : n = p.bundle => h (e ▸ List.mem_eraseDups.mp hn)]
    · rw [mergedUnder_append, if_pos rfl, mergedUnder_of_not_mem h]
      simp [Asset.append]

namespace Catalogue

/-! ### Additions in turn -/

/-- The catalogue with a part added. -/
def addPart (c : Catalogue) (p : Asset) : Catalogue :=
  c.add p.bundle p.files p.references

/-- The catalogue of parts that are added in turn. -/
def ofParts (parts : List Asset) : Catalogue :=
  parts.foldl addPart empty

/-- **A catalogue gathers its parts by name.** -/
theorem assets_ofParts (parts : List Asset) : (ofParts parts).assets = gathered parts := by
  have entries : (ofParts parts).entries = (gathered parts).map Asset.entry := by
    -- the last part is the last to be added, so it is the head of the reversed list
    rw [ofParts, ← parts.reverse_reverse, List.foldl_reverse]
    induction parts.reverse with
    | nil => rfl
    | cons p parts ih =>
      rw [List.foldr_cons, List.reverse_cons, ← addTo_gathered, ← ih]
      rfl
  rw [assets, entries, List.map_map]
  exact List.map_id' _

/-- Under a name stands what the parts of the name bring, if there are any. -/
theorem get?_ofParts (parts : List Asset) (n : Text) :
    (ofParts parts).get? n =
      if n ∈ parts.map (·.bundle) then some (mergedUnder n parts) else none := by
  have named : (fun a : Asset => a.bundle == n) ∘ (mergedUnder · parts) = (· == n) := rfl
  rw [get?_eq_find?, assets_ofParts, gathered, List.find?_map, named]
  by_cases h : n ∈ parts.map (·.bundle)
  · have found : (parts.map (·.bundle)).eraseDups.find? (· == n) = some n := by
      have is_some := List.find?_isSome (p := (· == n)).mpr
        ⟨n, List.mem_eraseDups.mpr h, beq_self_eq_true n⟩
      obtain ⟨m, hm⟩ := Option.isSome_iff_exists.mp is_some
      have e : (m == n) = true := List.find?_some (p := (· == n)) hm
      rw [hm, eq_of_beq e]
    rw [if_pos h, found, Option.map_some]
  · have missed : (parts.map (·.bundle)).eraseDups.find? (· == n) = none := by
      rw [List.find?_eq_none]
      intro m hm e
      exact h (eq_of_beq e ▸ List.mem_eraseDups.mp hm)
    rw [if_neg h, missed, Option.map_none]

/-- Two additions under one name are one. -/
theorem add_add (c : Catalogue) (b : Text) (fs gs : List Text) (rs ss : List Bytes) :
    (c.add b fs rs).add b gs ss = c.add b (fs ++ gs) (rs ++ ss) := by
  apply eq_of_entries
  simp only [entries_add]
  induction c.entries with
  | nil => simp [addTo, Asset.append]
  | cons e es ih =>
    obtain ⟨key, a⟩ := e
    by_cases h : key = b
    · simp [addTo, h, Asset.append_append]
    · simp [addTo, h, ih]

end Catalogue

end AssetAudit

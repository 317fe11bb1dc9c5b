/-
AssetAudit/Asset/Catalogue.lean

All images of a project, by bundle name.

A `Catalogue` holds one asset for each bundle name that was met, in the order
in which the names were first met.  An asset is kept under its name as a key, and
has the same name itself.  Whatever is added goes through `add`: to the asset
under that key if there is one, to a new asset at the end if there is none.
Looking a name up adds nothing.
-/
import AssetAudit.Asset.Basic
import AssetAudit.Text.Utf8

namespace AssetAudit

/-! ### Entries -/

/-- An asset under its own name. -/
def Asset.entry (a : Asset) : Text × Asset :=
  (a.bundle, a)

/-- The entries with more files and references under a bundle name. -/
def addTo (bundle : Text) (files : List Text) (references : List Bytes) :
    List (Text × Asset) → List (Text × Asset)
  | [] => [(bundle, ⟨bundle, files, references⟩)]
  | (key, a) :: es =>
    if key = bundle then (key, a.append files references) :: es
    else (key, a) :: addTo bundle files references es

section

variable (bundle : Text) (files : List Text) (references : List Bytes)

/-- The keys stay, and a new one goes to the end. -/
theorem keys_addTo (es : List (Text × Asset)) :
    (addTo bundle files references es).map (·.1) =
      if bundle ∈ es.map (·.1) then es.map (·.1) else es.map (·.1) ++ [bundle] := by
  induction es with
  | nil => rfl
  | cons e es ih =>
    obtain ⟨key, a⟩ := e
    by_cases h : key = bundle
    · simp [addTo, h]
    · have h' : ¬ bundle = key := fun e => h e.symm
      by_cases m : bundle ∈ es.map (·.1)
      · rw [if_pos m] at ih
        simp only [addTo, h, if_false, List.map_cons, List.mem_cons, h', m, or_true, if_true, ih]
      · rw [if_neg m] at ih
        simp only [addTo, h, if_false, List.map_cons, List.mem_cons, h', m, or_self, ih]
        rfl

/-- Where assets are kept under their own names, they still are. -/
theorem named_addTo {es : List (Text × Asset)} (named : ∀ e ∈ es, e.2.bundle = e.1) :
    ∀ e ∈ addTo bundle files references es, e.2.bundle = e.1 := by
  induction es with
  | nil => simp [addTo]
  | cons e es ih =>
    obtain ⟨key, a⟩ := e
    obtain ⟨first, later⟩ := List.forall_mem_cons.mp named
    by_cases h : key = bundle
    · rw [addTo, if_pos h]
      exact List.forall_mem_cons.mpr ⟨first, later⟩
    · rw [addTo, if_neg h]
      exact List.forall_mem_cons.mpr ⟨first, ih later⟩

end

/-- The images of a project, one for each bundle name. -/
structure Catalogue where
  /-- The images under their keys, in the order in which these were first met. -/
  entries : List (Text × Asset)
  /-- No key has two assets. -/
  distinct : (entries.map (·.1)).Nodup
  /-- An asset is kept under its own name. -/
  named : ∀ e ∈ entries, e.2.bundle = e.1

namespace Catalogue

/-- The catalogue of no image. -/
def empty : Catalogue := ⟨[], List.nodup_nil, nofun⟩

/-- The images, in the order in which their names were first met. -/
def assets (c : Catalogue) : List Asset :=
  c.entries.map (·.2)

/-- The bundle names of the images. -/
def bundles (c : Catalogue) : List Text :=
  c.assets.map (·.bundle)

/-- The number of images. -/
def size (c : Catalogue) : Nat :=
  c.entries.length

/-- The asset under a bundle name, if the name was met. -/
def get? (c : Catalogue) (bundle : Text) : Option Asset :=
  (c.entries.find? (·.1 == bundle)).map (·.2)

/-- The catalogue with more files and references under a bundle name. -/
def add (c : Catalogue) (bundle : Text) (files : List Text) (references : List Bytes) :
    Catalogue where
  entries := addTo bundle files references c.entries
  distinct := by
    rw [keys_addTo]
    split
    · exact c.distinct
    · rename_i h
      rw [List.nodup_append]
      refine ⟨c.distinct, by simp, fun x hx y hy e => h ?_⟩
      rwa [← List.mem_singleton.mp hy, ← e]
  named := named_addTo bundle files references c.named

/-- The catalogue with an image file found in the project. -/
def addFile (c : Catalogue) (path : Bytes) : Catalogue :=
  let name := Utf8.decodeLossy path
  c.add (bundleName name) [name] []

/-- The catalogue with a mention of the image `name` found in `source`. -/
def addMention (c : Catalogue) (name : Text) (source : Bytes) : Catalogue :=
  c.add (bundleName name) [] [source]

/-! ### Keys and names -/

/-- **The key of an asset is its name**, so the entries are told by the assets. -/
theorem entries_eq (c : Catalogue) : c.entries = c.assets.map Asset.entry := by
  have same : ∀ e ∈ c.entries, (Asset.entry ∘ Prod.snd) e = e := by
    intro e he
    show (e.2.bundle, e.2) = e
    rw [c.named e he]
  rw [assets, List.map_map, List.map_congr_left same, List.map_id']

/-- A catalogue is determined by its entries. -/
theorem eq_of_entries {c d : Catalogue} (h : c.entries = d.entries) : c = d := by
  obtain ⟨es, _, _⟩ := c
  obtain ⟨es', _, _⟩ := d
  subst h
  rfl

/-- To look a key up is to look for the asset of that name. -/
theorem get?_eq_find? (c : Catalogue) (b : Text) : c.get? b = c.assets.find? (·.bundle == b) := by
  rw [get?, entries_eq, List.find?_map, Option.map_map]
  exact Option.map_id'

theorem keys_eq_bundles (c : Catalogue) : c.entries.map (·.1) = c.bundles := by
  rw [entries_eq, List.map_map]
  rfl

theorem size_eq (c : Catalogue) : c.size = c.assets.length :=
  (List.length_map _).symm

@[simp] theorem entries_add (c : Catalogue) (b : Text) (fs : List Text) (rs : List Bytes) :
    (c.add b fs rs).entries = addTo b fs rs c.entries := rfl

/-- Adding under a name keeps the names, in order, and puts a new one last. -/
theorem bundles_add (c : Catalogue) (b : Text) (fs : List Text) (rs : List Bytes) :
    (c.add b fs rs).bundles = if b ∈ c.bundles then c.bundles else c.bundles ++ [b] := by
  rw [← keys_eq_bundles, ← keys_eq_bundles]
  exact keys_addTo b fs rs c.entries

/-- What is found under a name after an addition. -/
theorem get?_add (c : Catalogue) (b n : Text) (fs : List Text) (rs : List Bytes) :
    (c.add b fs rs).get? n =
      if n = b then some (((c.get? b).getD ⟨b, [], []⟩).append fs rs) else c.get? n := by
  unfold get?
  rw [entries_add]
  induction c.entries with
  | nil =>
    by_cases h : n = b
    · simp [addTo, h, Asset.append]
    · have h' : ¬ b = n := fun e => h e.symm
      simp [addTo, h, h']
  | cons e es ih =>
    obtain ⟨key, a⟩ := e
    by_cases ha : key = b
    · by_cases h : n = b
      · simp [addTo, ha, h]
      · have h' : ¬ b = n := fun e => h e.symm
        simp [addTo, ha, h, h']
    · by_cases hn : key = n
      · have h : ¬ n = b := fun e => ha (hn.trans e)
        subst hn
        simp [addTo, ha]
      · have ha' : (key == b) = false := by simpa using ha
        have hn' : (key == n) = false := by simpa using hn
        simp only [addTo, ha, if_false, List.find?_cons, ha', hn', ih]

end Catalogue

end AssetAudit

/-
AssetAudit/Proofs/Operations.lean

Runs of operations on a catalogue.

A catalogue is used in three ways: an image is named and files and references
are put to it (`upsert`), something is come across in a project (`sight`), or
a bundle name is looked up (`look`).  Apart from a look-up, an operation
brings a part under the bundle name of the raw name it uses
(`Operation.part?`), and it does nothing else (`apply_eq_elim`).  So a run
from the empty catalogue gathers the parts of its operations.

Main result: `run_gathers` says what stands in a catalogue after any run, what
a look-up finds then, and that look-ups leave no trace.
-/
import AssetAudit.Proofs.Gathering

namespace AssetAudit

/-! ### Sightings -/

/-- Something that is come across in a project. -/
inductive Sighting where
  /-- An image file at a path. -/
  | file (path : Bytes)
  /-- A mention of an image in a source. -/
  | mention (name : Text) (source : Bytes)

/-- What a sighting brings to a catalogue. -/
def Sighting.part : Sighting → Asset
  | .file path => ⟨bundleName (Utf8.decodeLossy path), [Utf8.decodeLossy path], []⟩
  | .mention name source => ⟨bundleName name, [], [source]⟩

/-- The catalogue with what was come across. -/
def Catalogue.sight (c : Catalogue) : Sighting → Catalogue
  | .file path => c.addFile path
  | .mention name source => c.addMention name source

theorem Catalogue.sight_eq_addPart (c : Catalogue) (s : Sighting) :
    c.sight s = c.addPart s.part := by
  cases s <;> rfl

/-- The catalogue of what was come across, one after the other. -/
def Catalogue.ofSightings (ss : List Sighting) : Catalogue :=
  ss.foldl sight empty

theorem Catalogue.ofSightings_eq_ofParts (ss : List Sighting) :
    ofSightings ss = ofParts (ss.map Sighting.part) := by
  rw [ofSightings, ofParts, List.foldl_map]
  congr 1
  funext c s
  exact c.sight_eq_addPart s

/-! ### Operations -/

/-- A single thing that is put to an image. -/
inductive Item where
  | file (path : Text)
  | reference (source : Bytes)

/-- The file, if the item is one. -/
def Item.file? : Item → Option Text
  | .file path => some path
  | .reference _ => none

/-- The reference, if the item is one. -/
def Item.reference? : Item → Option Bytes
  | .file _ => none
  | .reference source => some source

/-- An operation on a catalogue. -/
inductive Operation where
  /-- The image called `name` is looked for, made if it is not there, and the
  items are put to it one by one. -/
  | upsert (name : Text) (items : List Item)
  /-- Something is come across. -/
  | sight (s : Sighting)
  /-- A bundle name is looked up. -/
  | look (bundle : Text)

/-- What an operation brings to a catalogue: a part under the bundle name of
the raw name that it uses.  A look-up brings nothing. -/
def Operation.part? : Operation → Option Asset
  | .upsert name items =>
    some ⟨bundleName name, items.filterMap Item.file?, items.filterMap Item.reference?⟩
  | .sight s => some s.part
  | .look _ => none

namespace Catalogue

/-- The catalogue with an item put to the image of a bundle name. -/
def addItem (bundle : Text) (c : Catalogue) : Item → Catalogue
  | .file path => c.add bundle [path] []
  | .reference source => c.add bundle [] [source]

/-- The catalogue after an operation. -/
def apply (c : Catalogue) : Operation → Catalogue
  | .upsert name items =>
    items.foldl (addItem (bundleName name)) (c.add (bundleName name) [] [])
  | .sight s => c.sight s
  | .look _ => c

/-- The catalogue after operations on the empty one. -/
def run (ops : List Operation) : Catalogue :=
  ops.foldl apply empty

/-- Items that are put to an image one by one are put to it at once. -/
theorem foldl_addItem (c : Catalogue) (b : Text) (fs : List Text) (rs : List Bytes)
    (items : List Item) :
    items.foldl (addItem b) (c.add b fs rs) =
      c.add b (fs ++ items.filterMap Item.file?) (rs ++ items.filterMap Item.reference?) := by
  induction items generalizing fs rs with
  | nil => simp
  | cons i items ih =>
    rw [List.foldl_cons]
    cases i with
    | file path =>
      have file : Item.file? (.file path) = some path := rfl
      have reference : Item.reference? (.file path) = none := rfl
      rw [addItem, add_add, ih, List.filterMap_cons_some file, List.filterMap_cons_none reference]
      simp only [List.append_assoc, List.singleton_append, List.nil_append]
    | reference source =>
      have file : Item.file? (.reference source) = none := rfl
      have reference : Item.reference? (.reference source) = some source := rfl
      rw [addItem, add_add, ih, List.filterMap_cons_none file, List.filterMap_cons_some reference]
      simp only [List.append_assoc, List.singleton_append, List.nil_append]

/-- An operation adds its part, if it brings one, and does nothing else. -/
theorem apply_eq_elim (c : Catalogue) (op : Operation) :
    c.apply op = op.part?.elim c c.addPart := by
  cases op with
  | upsert name items =>
    rw [apply, foldl_addItem, List.nil_append, List.nil_append]
    rfl
  | sight s => exact c.sight_eq_addPart s
  | look n => rfl

/-- A run gathers the parts of its operations. -/
theorem run_eq_ofParts (ops : List Operation) :
    run ops = ofParts (ops.filterMap Operation.part?) := by
  rw [run, ofParts, List.foldl_filterMap]
  congr 1
  -- step by step, with or without a part
  funext c op
  rw [apply_eq_elim]
  cases op.part? <;> rfl

/-- **A catalogue is a group-by.**  After any run from the empty catalogue it
holds one asset for each bundle name that was used, in the order of first use;
the asset has the files and the references that the operations of its name
brought, in their order, each as often as it was brought, and nothing else.  A
look-up finds that asset, or nothing if the name was not used, and a run comes
to the same catalogue without its look-ups. -/
theorem run_gathers (ops : List Operation) :
    let parts := ops.filterMap Operation.part?
    let names := parts.map (·.bundle)
    (run ops).assets = names.eraseDups.map (fun b =>
        { bundle := b
          files := (parts.filter (·.bundle = b)).flatMap (·.files)
          references := (parts.filter (·.bundle = b)).flatMap (·.references) }) ∧
      (∀ n, (run ops).get? n = if n ∈ names then
        some { bundle := n
               files := (parts.filter (·.bundle = n)).flatMap (·.files)
               references := (parts.filter (·.bundle = n)).flatMap (·.references) }
        else none) ∧
      (run ops).size = names.eraseDups.length ∧
      ∀ before n after, run (before ++ .look n :: after) = run (before ++ after) := by
  intro parts names
  have gathers := run_eq_ofParts ops
  refine ⟨?_, ?_, ?_, ?_⟩
  · rw [gathers, assets_ofParts]
    rfl
  · intro n
    rw [gathers, get?_ofParts]
    rfl
  · rw [gathers, size_eq, assets_ofParts, gathered, List.length_map]
  · -- a look-up brings no part, so both runs gather the same parts
    intro before n after
    rw [run_eq_ofParts, run_eq_ofParts, List.filterMap_append, List.filterMap_append]
    rfl

end Catalogue

end AssetAudit

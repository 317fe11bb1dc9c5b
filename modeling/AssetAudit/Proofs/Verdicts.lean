/-
AssetAudit/Proofs/Verdicts.lean

What the verdicts on images depend on.

The checks look at whole paths, one file after the other, and the catalogue is
filled in the order in which things are come across.  Still the kinds of findings
on an image depend on no more than the names of its files, without an order, and
on whether it is mentioned at all:

* `Asset.kinds_eq_of_names` — for one image, as long as the marker of the Retina
  resolution is in no directory part (`IsPlain`);
* `Sighting.shape` — what is left of a sighting without the directory of a file
  and without the source of a mention; it decides the bundle name;
* `Catalogue.verdicts_of_shapes` — for a whole catalogue, in any order.

Main result: `Catalogue.verdicts_of_moved`, for what is come across in another
order and in other directories.
-/
import AssetAudit.Proofs.Canonical
import AssetAudit.Proofs.Checks
import AssetAudit.Proofs.Shown
import Mathlib.Data.List.Forall2
import Mathlib.Data.List.Perm.Basic

namespace AssetAudit

/-! ### Kinds of findings -/

/-- What is found to be wrong, without the image that it is wrong with. -/
inductive FindingKind where
  | missingFiles
  | missing (part : Part)
  | duplicates
  deriving DecidableEq, Repr

/-- The kind of a finding. -/
def Finding.kind : Finding → FindingKind
  | .missingFiles _ _ => .missingFiles
  | .missing part _ => .missing part
  | .duplicates _ => .duplicates

namespace Asset

/-- The kinds of findings on the image, in their order. -/
def kinds (a : Asset) : List FindingKind :=
  a.findings.map Finding.kind

theorem kind_missing? (a : Asset) (p : Part) :
    (a.missing? p).map Finding.kind = if a.lacks p then some (.missing p) else none := by
  rw [missing?]
  split <;> rfl

theorem kind_missingFiles? (a : Asset) :
    a.missingFiles?.map Finding.kind = if a.lacksFiles then some .missingFiles else none := by
  rw [missingFiles?]
  split <;> rfl

theorem kind_duplicates? (a : Asset) :
    a.duplicates?.map Finding.kind = if a.hasDuplicates then some .duplicates else none := by
  rw [duplicates?]
  split <;> rfl

/-- The kinds of findings depend on which checks fail, and on nothing else. -/
theorem kinds_congr {a a' : Asset} (files : a.lacksFiles = a'.lacksFiles)
    (parts : ∀ p, a.lacks p = a'.lacks p) (duplicates : a.hasDuplicates = a'.hasDuplicates) :
    a.kinds = a'.kinds := by
  have orElse (x y : Option Finding) :
      (x <|> y).map Finding.kind = (x.map Finding.kind <|> y.map Finding.kind) := by
    cases x <;> rfl
  have groups (b : Asset) : b.kinds =
      (b.missingFiles?.map Finding.kind <|> (b.missing? .references).map Finding.kind).toList ++
      ((b.missing? .retina).map Finding.kind <|> (b.missing? .standard).map Finding.kind).toList ++
      ((b.missing? .iphone).map Finding.kind <|> (b.missing? .ipad).map Finding.kind).toList ++
      (b.duplicates?.map Finding.kind).toList := by
    simp only [kinds, findings_eq_groups, List.map_append, ← orElse, Option.toList_map]
  simp only [groups, kind_missing?, kind_missingFiles?, kind_duplicates?, files, parts, duplicates]

end Asset

/-! ### Files by their names -/

/-- The checks see the same in the path as in the file name. -/
def IsPlain (path : Text) : Prop :=
  isRetina path = isRetina (Path.basename path) ∧
    ∀ d, isFor d path = isFor d (Path.basename path)

namespace Asset

variable {a a' : Asset}

theorem lacksFiles_eq_of_names
    (names : (a.files.map Path.basename).Perm (a'.files.map Path.basename)) :
    a.lacksFiles = a'.lacksFiles := by
  have lengths := names.length_eq
  rw [List.length_map, List.length_map] at lengths
  rw [lacksFiles, lacksFiles, Bool.eq_iff_iff, List.isEmpty_iff_length_eq_zero,
    List.isEmpty_iff_length_eq_zero, lengths]

/-- A test that sees the same in a path as in its file name depends on the file
names alone. -/
theorem allFiles_eq_of_names {test : Text → Bool}
    (seen : ∀ f ∈ a.files, test f = test (Path.basename f))
    (seen' : ∀ f ∈ a'.files, test f = test (Path.basename f))
    (names : (a.files.map Path.basename).Perm (a'.files.map Path.basename)) :
    a.allFiles test = a'.allFiles test := by
  have byName {files : List Text} (h : ∀ f ∈ files, test f = test (Path.basename f)) :
      files.all test = (files.map Path.basename).all test := by
    rw [List.all_map, Bool.eq_iff_iff, List.all_eq_true, List.all_eq_true]
    exact forall₂_congr fun f hf => by rw [h f hf, Function.comp_apply]
  rw [allFiles, allFiles, lacksFiles_eq_of_names names, byName seen, byName seen', names.all_eq]

/-- **The kinds of findings depend on the file names**, in whatever order, and on
whether the image is mentioned. -/
theorem kinds_eq_of_names (plain : ∀ f ∈ a.files, IsPlain f) (plain' : ∀ f ∈ a'.files, IsPlain f)
    (names : (a.files.map Path.basename).Perm (a'.files.map Path.basename))
    (references : a.references.isEmpty = a'.references.isEmpty) : a.kinds = a'.kinds := by
  have retina := fun f hf => (plain f hf).1
  have retina' := fun f hf => (plain' f hf).1
  have device (d : Device) : a.allFiles (isFor d) = a'.allFiles (isFor d) :=
    allFiles_eq_of_names (fun f hf => (plain f hf).2 d) (fun f hf => (plain' f hf).2 d) names
  apply kinds_congr
  · exact lacksFiles_eq_of_names names
  · intro p
    cases p with
    | references => exact references
    | retina =>
      exact allFiles_eq_of_names (fun f hf => congrArg not (retina f hf))
        (fun f hf => congrArg not (retina' f hf)) names
    | standard => exact allFiles_eq_of_names retina retina' names
    | iphone => exact device .ipad
    | ipad => exact device .iphone
  · rw [hasDuplicates, hasDuplicates, ← Bool.not_inj_iff, Bool.eq_iff_iff, Bool.not_eq_true',
      Bool.not_eq_true', hasRepeat_eq_false_iff, hasRepeat_eq_false_iff]
    exact names.nodup_iff

end Asset

/-! ### Directory parts -/

/-- A word is found across a unit that it lacks only on one side of it. -/
theorem infix_of_infix_append_cons {α : Type} {word l m : List α} {x : α}
    (h : word <:+: l ++ x :: m) (hx : x ∉ word) : word <:+: l ∨ word <:+: m := by
  rcases List.infix_append_iff.mp h with before | behind | ⟨u, v, rfl, hu, hv⟩
  · exact .inl before
  · rcases List.infix_cons_iff.mp behind with first | later
    · cases word with
      | nil => exact .inl (List.nil_infix ..)
      | cons c word =>
        obtain ⟨rfl, _⟩ := List.cons_prefix_cons.mp first
        exact absurd (List.mem_cons_self ..) hx
    · exact .inr later
  · cases v with
    | nil =>
      rw [List.append_nil]
      exact .inl hu.isInfix
    | cons c v =>
      obtain ⟨rfl, _⟩ := List.cons_prefix_cons.mp hv
      exact absurd (List.mem_append_right u (List.mem_cons_self ..)) hx

theorem isRetina_append_slash (d c : Text) :
    isRetina (d ++ '/' :: c) = (isRetina d || isRetina c) := by
  rw [Bool.eq_iff_iff, Bool.or_eq_true, isRetina_iff, isRetina_iff, isRetina_iff]
  constructor
  · intro h
    exact infix_of_infix_append_cons h (by decide)
  · rintro (before | behind)
    · exact before.trans (List.prefix_append ..).isInfix
    · exact behind.trans ((List.suffix_cons ..).trans (List.suffix_append ..)).isInfix

theorem isFor_append_slash (device : Device) (d c : Text) :
    isFor device (d ++ '/' :: c) = isFor device c := by
  have word {w : Text} (free : '/' ∉ w) : endsFolded w (d ++ '/' :: c) = endsFolded w c := by
    rw [Bool.eq_iff_iff]
    constructor
    · rw [endsFolded_iff, endsFolded_iff, List.map_append, List.map_cons]
      intro h
      exact suffix_of_suffix_append_cons h free
    · intro h
      rw [← List.singleton_append, ← List.append_assoc]
      exact endsFolded_append _ h
  cases device with
  | ipad => rw [isFor, isFor, word (by decide), word (by decide)]
  | iphone => rw [isFor, isFor, word (by decide), word (by decide)]

/-- What stands before the name in the path of a file: nothing, or something that
ends in a slash.  The marker of the Retina resolution is not in it. -/
def IsDirectoryPart (d : Bytes) : Prop :=
  (d = [] ∨ ∃ front, d = front ++ [0x2F]) ∧ isRetina (Utf8.decodeLossy d) = false

/-- The file name of a path is the name behind the directory part, and the checks
see no more than that. -/
theorem isPlain_of_directoryPart {d n : Bytes} (directory : IsDirectoryPart d)
    (name : IsEntryName n) :
    Path.basename (Utf8.decodeLossy (d ++ n)) = Utf8.decodeLossy n ∧
      IsPlain (Utf8.decodeLossy (d ++ n)) := by
  obtain ⟨proper, free⟩ := name.shown
  obtain ⟨rfl | ⟨front, rfl⟩, standard⟩ := directory
  · have own := Path.basename_of_no_slash free
    rw [List.nil_append]
    exact ⟨own, by rw [own], fun _ => by rw [own]⟩
  · have slash : (0x2F : UInt8).toNat < 0x80 := by decide
    have text : Utf8.decodeLossy (front ++ [0x2F] ++ n) =
        Utf8.decodeLossy front ++ '/' :: Utf8.decodeLossy n := by
      rw [List.append_assoc, List.singleton_append]
      exact Utf8.decodeLossy_append_ascii slash front n
    have own : Path.basename (Utf8.decodeLossy (front ++ [0x2F] ++ n)) = Utf8.decodeLossy n := by
      rw [text]
      exact Path.basename_append_slash (by decide) free proper
    have before : isRetina (Utf8.decodeLossy front) = false := by
      have whole : Utf8.decodeLossy (front ++ [0x2F]) = Utf8.decodeLossy front ++ ['/'] :=
        Utf8.decodeLossy_append_ascii slash front []
      rw [whole, isRetina_append_slash, Bool.or_eq_false_iff] at standard
      exact standard.1
    refine ⟨own, ?_, fun device => ?_⟩
    · rw [own, text, isRetina_append_slash, before, Bool.false_or]
    · rw [own, text, isFor_append_slash]

/-! ### Sightings without their places -/

/-- What is left of a sighting without its place. -/
inductive Shape where
  /-- A file of that name. -/
  | file (name : Text)
  /-- A mention of that name. -/
  | mention (name : Text)

/-- The sighting without the directory of a file and without the source of a
mention. -/
def Sighting.shape : Sighting → Shape
  | .file path => .file (Path.basename (Utf8.decodeLossy path))
  | .mention name _ => .mention name

namespace Shape

/-- The bundle name that the sighting is of. -/
def bundle : Shape → Text
  | .file name => (splitEnding name).1
  | .mention name => bundleName name

/-- The file names that the sighting brings. -/
def names : Shape → List Text
  | .file name => [name]
  | .mention _ => []

/-- The names by which the sighting mentions an image. -/
def mentions : Shape → List Text
  | .file _ => []
  | .mention name => [name]

end Shape

theorem bundle_part (s : Sighting) : s.part.bundle = s.shape.bundle := by
  cases s <;> rfl

theorem names_part (s : Sighting) : s.part.files.map Path.basename = s.shape.names := by
  cases s <;> rfl

theorem length_references_part (s : Sighting) :
    s.part.references.length = s.shape.mentions.length := by
  cases s <;> rfl

theorem map_bundle_part (ss : List Sighting) :
    (ss.map Sighting.part).map (·.bundle) = (ss.map Sighting.shape).map Shape.bundle := by
  rw [List.map_map, List.map_map]
  exact List.map_congr_left fun s _ => bundle_part s

/-- The shapes of one bundle name. -/
def shapesUnder (b : Text) (shapes : List Shape) : List Shape :=
  shapes.filter (·.bundle = b)

/-- The parts of one bundle name are those of the shapes of that name. -/
theorem filter_parts (b : Text) (ss : List Sighting) :
    (ss.map Sighting.part).filter (·.bundle = b) =
      (ss.filter (·.shape.bundle = b)).map Sighting.part := by
  rw [List.filter_map]
  congr 1
  exact List.filter_congr fun s _ => by rw [Function.comp_apply, bundle_part]

theorem shapesUnder_map (b : Text) (ss : List Sighting) :
    shapesUnder b (ss.map Sighting.shape) =
      (ss.filter (·.shape.bundle = b)).map Sighting.shape := by
  rw [shapesUnder, List.filter_map]
  rfl

theorem names_mergedUnder (b : Text) (ss : List Sighting) :
    (mergedUnder b (ss.map Sighting.part)).files.map Path.basename =
      (shapesUnder b (ss.map Sighting.shape)).flatMap Shape.names := by
  rw [shapesUnder_map, mergedUnder, filter_parts, List.map_flatMap, List.flatMap_map,
    List.flatMap_map]
  exact List.flatMap_congr fun s _ => names_part s

theorem length_references_mergedUnder (b : Text) (ss : List Sighting) :
    (mergedUnder b (ss.map Sighting.part)).references.length =
      ((shapesUnder b (ss.map Sighting.shape)).flatMap Shape.mentions).length := by
  rw [shapesUnder_map, mergedUnder, filter_parts, List.flatMap_map, List.flatMap_map,
    List.length_flatMap, List.length_flatMap, List.map_map]
  exact congrArg List.sum (List.map_congr_left fun s _ => length_references_part s)

/-- The checks see no more of the file than its name. -/
def Sighting.IsPlain : Sighting → Prop
  | .file path => AssetAudit.IsPlain (Utf8.decodeLossy path)
  | .mention _ _ => True

theorem isPlain_of_mem {b f : Text} {ss : List Sighting} (plain : ∀ s ∈ ss, s.IsPlain)
    (h : f ∈ (mergedUnder b (ss.map Sighting.part)).files) : IsPlain f := by
  obtain ⟨p, hp, _, hf⟩ := mem_files_mergedUnder.mp h
  obtain ⟨s, hs, rfl⟩ := List.mem_map.mp hp
  have here := plain s hs
  cases s with
  | file path => exact List.mem_singleton.mp hf ▸ here
  | mention _ _ => cases hf

namespace Catalogue

theorem bundles_ofSightings (ss : List Sighting) :
    (ofSightings ss).bundles = ((ss.map Sighting.shape).map Shape.bundle).eraseDups := by
  rw [bundles, ofSightings_eq_ofParts, assets_ofParts, gathered, List.map_map, map_bundle_part]
  exact List.map_id _

/-- **Verdicts depend on shapes alone**, in whatever order they come. -/
theorem verdicts_of_shapes {ss ss' : List Sighting}
    (shapes : (ss.map Sighting.shape).Perm (ss'.map Sighting.shape))
    (plain : ∀ s ∈ ss, s.IsPlain) (plain' : ∀ s ∈ ss', s.IsPlain) :
    (ofSightings ss).bundles.Perm (ofSightings ss').bundles ∧
      ∀ b, ((ofSightings ss).get? b).map Asset.kinds =
        ((ofSightings ss').get? b).map Asset.kinds := by
  have bundles := shapes.map Shape.bundle
  constructor
  · rw [bundles_ofSightings, bundles_ofSightings]
    refine (List.perm_ext_iff_of_nodup (nodup_eraseDups _) (nodup_eraseDups _)).mpr fun b => ?_
    rw [List.mem_eraseDups, List.mem_eraseDups, bundles.mem_iff]
  · intro b
    have under : (shapesUnder b (ss.map Sighting.shape)).Perm
        (shapesUnder b (ss'.map Sighting.shape)) := shapes.filter _
    rw [ofSightings_eq_ofParts, ofSightings_eq_ofParts, get?_ofParts, get?_ofParts,
      map_bundle_part, map_bundle_part]
    by_cases known : b ∈ (ss.map Sighting.shape).map Shape.bundle
    · rw [if_pos known, if_pos (bundles.mem_iff.mp known)]
      apply congrArg some
      apply Asset.kinds_eq_of_names
      · exact fun f hf => isPlain_of_mem plain hf
      · exact fun f hf => isPlain_of_mem plain' hf
      · rw [names_mergedUnder, names_mergedUnder]
        exact under.flatMap_right _
      · rw [Bool.eq_iff_iff, List.isEmpty_iff_length_eq_zero, List.isEmpty_iff_length_eq_zero,
          length_references_mergedUnder, length_references_mergedUnder,
          (under.flatMap_right _).length_eq]
    · rw [if_neg known, if_neg (mt bundles.mem_iff.mpr known)]

end Catalogue

/-! ### The same things in other places -/

/-- The same file in another directory, or the same mention in another source. -/
inductive Moved : Sighting → Sighting → Prop
  | file {d d' name : Bytes} : IsDirectoryPart d → IsDirectoryPart d' → IsEntryName name →
      Moved (.file (d ++ name)) (.file (d' ++ name))
  | mention {name : Text} {source source' : Bytes} :
      Moved (.mention name source) (.mention name source')

theorem Moved.same {s s' : Sighting} (h : Moved s s') :
    s.shape = s'.shape ∧ s.IsPlain ∧ s'.IsPlain := by
  cases h with
  | file directory directory' name =>
    obtain ⟨own, plain⟩ := isPlain_of_directoryPart directory name
    obtain ⟨own', plain'⟩ := isPlain_of_directoryPart directory' name
    exact ⟨congrArg Shape.file (own.trans own'.symm), plain, plain'⟩
  | mention => exact ⟨rfl, trivial, trivial⟩

theorem shapes_of_moved {ss ss' : List Sighting} (h : List.Forall₂ Moved ss ss') :
    ss.map Sighting.shape = ss'.map Sighting.shape ∧ (∀ s ∈ ss, s.IsPlain) ∧
      ∀ s ∈ ss', s.IsPlain := by
  induction h with
  | nil => exact ⟨rfl, by simp, by simp⟩
  | cons first _ ih =>
    obtain ⟨shape, plain, plain'⟩ := first.same
    obtain ⟨shapes, all, all'⟩ := ih
    exact ⟨by rw [List.map_cons, List.map_cons, shape, shapes],
      List.forall_mem_cons.mpr ⟨plain, all⟩, List.forall_mem_cons.mpr ⟨plain', all'⟩⟩

/-- **Neither the order nor the places matter to the verdicts.**  When the same
files and mentions are come across in another order, the files in other
directories and the mentions in other sources, the same bundle names are known,
and on each of them there are findings of the same kinds, in the same order. -/
theorem Catalogue.verdicts_of_moved {ss between ss' : List Sighting} (order : ss.Perm between)
    (moved : List.Forall₂ Moved between ss') :
    (ofSightings ss).bundles.Perm (ofSightings ss').bundles ∧
      ∀ b, ((ofSightings ss).get? b).map (fun a => a.findings.map Finding.kind) =
        ((ofSightings ss').get? b).map fun a => a.findings.map Finding.kind := by
  obtain ⟨shapes, plain, plain'⟩ := shapes_of_moved moved
  refine verdicts_of_shapes ?_ (fun s hs => plain s (order.mem_iff.mp hs)) plain'
  rw [← shapes]
  exact order.map _

/-- Two files of one name are duplicates in whatever two directories, and the
Retina file is one wherever it is. -/
theorem Catalogue.verdicts_of_movedIcons :
    let ss : List Sighting := [.file (Utf8.encode "a/i.png".toList),
      .mention "i".toList (Utf8.encode "A.m".toList), .file (Utf8.encode "b/i@2x.png".toList),
      .file (Utf8.encode "a/i@2x.png".toList)]
    let ss' : List Sighting := [.file (Utf8.encode "i@2x.png".toList),
      .file (Utf8.encode "/c/i@2x.png".toList), .mention "i".toList (Utf8.encode "B.m".toList),
      .file (Utf8.encode "b/./i.png".toList)]
    (ofSightings ss).bundles.Perm (ofSightings ss').bundles ∧
      (∀ b, ((ofSightings ss).get? b).map (fun a => a.findings.map Finding.kind) =
        ((ofSightings ss').get? b).map fun a => a.findings.map Finding.kind) ∧
      ((ofSightings ss).get? "i".toList).map (fun a => a.findings.map Finding.kind) =
        some [.duplicates] := by
  intro ss ss'
  have here : IsDirectoryPart (Utf8.encode "".toList) := ⟨.inl rfl, rfl⟩
  have inner (front : Text) (standard : isRetina (Utf8.decodeLossy (Utf8.encode front ++ [0x2F])) =
      false) : IsDirectoryPart (Utf8.encode front ++ [0x2F]) := ⟨.inr ⟨_, rfl⟩, standard⟩
  have icon : IsEntryName (Utf8.encode "i.png".toList) := by decide
  have retina : IsEntryName (Utf8.encode "i@2x.png".toList) := by decide
  have moved : List.Forall₂ Moved ss.reverse ss' :=
    .cons (.file (inner "a".toList rfl) here retina)
      (.cons (.file (inner "b".toList rfl) (inner "/c".toList rfl) retina)
        (.cons .mention (.cons (.file (inner "a".toList rfl) (inner "b/.".toList rfl) icon) .nil)))
  obtain ⟨bundles, verdicts⟩ := verdicts_of_moved (List.reverse_perm ss).symm moved
  exact ⟨bundles, verdicts, by decide⟩

end AssetAudit

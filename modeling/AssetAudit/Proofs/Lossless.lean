/-
AssetAudit/Proofs/Lossless.lean

A report in JSON says all there is in it.

The word for the kind of a finding tells which fields the finding has
(`Finding.ofJson?`).  Texts stand in JSON as they are, and so does a path, which
is written only if it is UTF-8 and can then be written again from the text.  So a
report that has a JSON form is told by it (`Report.ofJson?_toJson`), and as
written JSON is read back, by either way of writing it down as well
(`Report.written_is_read_back`).  Reports that are written alike are the same.

A report has no JSON form exactly if a path that is not UTF-8 is in it.
-/
import AssetAudit.Proofs.Decoding
import AssetAudit.Proofs.ExitStatus
import AssetAudit.Proofs.Parsing

namespace AssetAudit

/-! ### Looking into values -/

namespace Json

/-- The member of that name. -/
def field? (name : String) : Json → Option Json
  | .object members => members.lookup name.toList
  | _ => none

def text? : Json → Option Text
  | .text t => some t
  | _ => none

def count? : Json → Option Nat
  | .count n => some n
  | _ => none

/-- The path whose text is written. -/
def path? (j : Json) : Option Bytes :=
  j.text?.map Utf8.encode

/-- The items of a list, each taken as `item?` says. -/
def items? {α : Type} (item? : Json → Option α) : Json → Option (List α)
  | .list items => items.mapM item?
  | _ => none

/-- Items are taken back if each of them is. -/
theorem items?_list {α ε : Type} {write : α → Except ε Json} {item? : Json → Option α}
    {xs : List α} {js : List Json} (each : ∀ x j, write x = .ok j → item? j = some x)
    (h : xs.mapM write = .ok js) : (list js).items? item? = some xs := by
  show js.mapM item? = _
  induction xs generalizing js with
  | nil =>
    cases h
    rfl
  | cons x xs ih =>
    rw [List.mapM_cons] at h
    obtain ⟨j, first, h⟩ := Except.bind_eq_ok_iff.mp h
    obtain ⟨rest, others, h⟩ := Except.bind_eq_ok_iff.mp h
    cases h
    rw [List.mapM_cons, each x j first, ih others]
    rfl

theorem path?_of_pathJson {p : Bytes} {j : Json} (h : pathJson p = .ok j) : j.path? = some p := by
  rw [pathJson] at h
  split at h
  · rename_i t decoded
    cases h
    rw [path?, text?, Option.map_some, Utf8.encode_of_decode? decoded]
  · cases h

/-- Texts are taken back as they are. -/
theorem texts?_list (ts : List Text) : (list (ts.map text)).items? text? = some ts := by
  have written : ts.mapM (fun t => (.ok (text t) : Except Unit Json)) = .ok (ts.map text) :=
    mapM_eq_ok_of_forall fun _ _ => rfl
  refine items?_list (fun t j h => ?_) written
  cases h
  rfl

end Json

/-! ### Findings -/

/-- The finding that is written as a value, if one is. -/
def Finding.ofJson? (j : Json) : Option Finding := do
  let kind ← (← j.field? "kind").text?
  if kind = "missing_image_files".toList then
    let bundle ← (← j.field? "bundle_name").text?
    let references ← (← j.field? "references").items? Json.path?
    return .missingFiles bundle references
  else if kind = "duplicate_files".toList then
    let files ← (← j.field? "files").items? Json.text?
    return .duplicates files
  else
    let part ← Part.ofKeyword? (String.ofList kind)
    let image ← (← j.field? "image").text?
    return .missing part image

/-- The word for a part stands for no other finding. -/
theorem Part.keyword_spec (p : Part) :
    p.keyword.toList ≠ "missing_image_files".toList ∧
      p.keyword.toList ≠ "duplicate_files".toList ∧ ofKeyword? p.keyword = some p := by
  cases p <;> decide

/-- **A finding is told by its JSON form.** -/
theorem Finding.ofJson?_toJson {f : Finding} {j : Json} (h : f.toJson = .ok j) :
    ofJson? j = some f := by
  cases f with
  | missingFiles bundle refs =>
    obtain ⟨paths, written, h⟩ := Except.bind_eq_ok_iff.mp h
    cases h
    show ((Json.list paths).items? Json.path?).bind _ = _
    rw [Json.items?_list (fun _ _ => Json.path?_of_pathJson) written]
    rfl
  | missing part image =>
    cases h
    obtain ⟨noFiles, noDuplicates, known⟩ := part.keyword_spec
    show (if part.keyword.toList = _ then _ else if part.keyword.toList = _ then _ else _) = _
    rw [if_neg noFiles, if_neg noDuplicates, String.ofList_toList, known]
    rfl
  | duplicates files =>
    cases h
    show ((Json.list (files.map .text)).items? Json.text?).bind _ = _
    rw [Json.texts?_list]
    rfl

/-! ### Reports -/

/-- The totals that are written as a value, if they are. -/
def Totals.ofJson? (j : Json) : Option Totals := do
  return {
    imageFiles := ← (← j.field? "image_files").count?
    sources := ← (← j.field? "source_files_scanned").count?
    references := ← (← j.field? "references").count?
    bundles := ← (← j.field? "bundles").count?
    findings := ← (← j.field? "findings").count? }

theorem Totals.ofJson?_toJson (t : Totals) : ofJson? t.toJson = some t :=
  rfl

namespace Report

/-- The report that is written as a value, if one is. -/
def ofJson? (j : Json) : Option Report := do
  let findings ← (← j.field? "findings").items? Finding.ofJson?
  let totals ← Totals.ofJson? (← j.field? "diagnostics")
  return ⟨findings, totals⟩

/-- The report that a text is written from, if it is a written report. -/
def read? (t : Text) : Option Report :=
  (Json.read? t).bind ofJson?

/-- **A report is told by its JSON form.** -/
theorem ofJson?_toJson {r : Report} {j : Json} (h : r.toJson = .ok j) : ofJson? j = some r := by
  obtain ⟨findings, written, h⟩ := Except.bind_eq_ok_iff.mp h
  obtain ⟨js, each, rfl⟩ := Except.map_eq_ok_iff.mp written
  cases h
  show ((Json.list js).items? Finding.ofJson?).bind _ = _
  rw [Json.items?_list (fun _ _ => Finding.ofJson?_toJson) each, Option.bind_some]
  exact congrArg (Option.map (Report.mk r.findings)) (Totals.ofJson?_toJson r.totals)

theorem read?_of_json {r : Report} {j : Json} (h : r.toJson = .ok j) {t : Text}
    (read : Json.read? t = some j) : read? t = some r := by
  rw [read?, read, Option.bind_some, ofJson?_toJson h]

/-- What is in a report without a JSON form. -/
theorem toJson_eq_error_iff {r : Report} :
    (∃ e, r.toJson = .error e) ↔ ∃ bundle refs, .missingFiles bundle refs ∈ r.findings ∧
      ∃ p ∈ refs, Utf8.decode? p = none := by
  have fails : (∃ e, r.toJson = .error e) ↔ ¬∃ j, r.toJson = .ok j := by
    cases r.toJson with
    | error e => exact iff_of_true ⟨e, rfl⟩ nofun
    | ok j => exact iff_of_false nofun (fun none => none ⟨j, rfl⟩)
  rw [fails, exists_toJson_iff]
  simp only [Finding.exists_toJson_iff, not_forall, exists_prop, Option.not_isSome_iff_eq_none]
  constructor
  · rintro ⟨f, hf, bundle, refs, rfl, p, hp, malformed⟩
    exact ⟨bundle, refs, hf, p, hp, malformed⟩
  · rintro ⟨bundle, refs, hf, p, hp, malformed⟩
    exact ⟨_, hf, bundle, refs, rfl, p, hp, malformed⟩

/-- **The JSON form of a report is lossless.**  A report has none exactly if it
tells of missing files and a source of the mentions has a path that is not UTF-8.
Otherwise one reader takes back the report, with all its findings and totals,
from what is written on one line, from what is written with elements on lines of
their own, and from that with a line end behind it, as it is printed.  So no two
reports are written alike, in either way. -/
theorem written_is_read_back (r : Report) :
    ((∃ e, r.toJson = .error e) ↔ ∃ bundle refs, .missingFiles bundle refs ∈ r.findings ∧
      ∃ p ∈ refs, Utf8.decode? p = none) ∧
    ∀ j, r.toJson = .ok j →
      read? j.compact = some r ∧ read? j.pretty = some r ∧
      read? (j.pretty ++ ['\n']) = some r ∧
      ∀ r' j', r'.toJson = .ok j' → j'.compact = j.compact ∨ j'.pretty = j.pretty → r' = r := by
  refine ⟨toJson_eq_error_iff, ?_⟩
  intro j form
  have compact := read?_of_json form j.read?_compact
  have pretty := read?_of_json form j.read?_pretty
  refine ⟨compact, pretty, read?_of_json form j.read?_pretty_line, ?_⟩
  intro r' j' form' alike
  have compact' := read?_of_json form' j'.read?_compact
  have pretty' := read?_of_json form' j'.read?_pretty
  rcases alike with same | same
  · rw [same, compact] at compact'
    exact (Option.some.inj compact').symm
  · rw [same, pretty] at pretty'
    exact (Option.some.inj pretty').symm

/-- A report with quotes, a backslash, line ends, other control characters and a
character of four bytes in its names, and with `source` mentioning a file that is
missing. -/
def oddlyNamed (source : Bytes) : Report where
  findings := [.missingFiles "\"\\\n".toList [source, Utf8.encode "a\"b.m".toList],
    .missing .retina "\x01😀\x1F".toList, .duplicates ["a/\t.png".toList, "b/\t.png".toList]]
  totals := ⟨10, 2, 3, 4, 3⟩

theorem written_is_read_back_of_oddlyNamed :
    let r := oddlyNamed (Utf8.encode "é.m".toList)
    (∃ j, r.toJson = .ok j ∧ read? j.compact = some r ∧ read? (j.pretty ++ ['\n']) = some r) ∧
      ∃ e, (oddlyNamed (0xFF :: Utf8.encode ".m".toList)).toJson = .error e := by
  intro r
  obtain ⟨j, form⟩ : ∃ j, r.toJson = .ok j := ⟨_, rfl⟩
  obtain ⟨compact, _, printed, _⟩ := (written_is_read_back r).2 j form
  refine ⟨⟨j, form, compact, printed⟩, (written_is_read_back _).1.mpr ?_⟩
  exact ⟨_, _, List.mem_cons_self .., _, List.mem_cons_self .., by decide⟩

end Report

namespace CommandLine

/-- What an audit prints in JSON is read as its report. -/
theorem read?_output {fs : FileSystem} {colour : Bool} {s : Settings} {r : Report}
    (h : s.report fs = .ok r) (json : s.json = true)
    (ended : ((Request.audit s).run fs colour).status = 0) :
    Report.read? ((Request.audit s).run fs colour).output = some r := by
  obtain ⟨_, report, j, form⟩ := (status_json_iff json).mp ended
  obtain rfl := Except.ok.inj (h.symm.trans report)
  rw [run_audit_json h json form]
  exact Report.read?_of_json form j.read?_pretty_line

end CommandLine

end AssetAudit

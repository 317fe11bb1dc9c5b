/-
AssetAudit/Proofs/Runs.lean

The mentions of documents, run by run.

The delimiter of a document format cuts a text into runs.  A mention may begin at
any place of a run, as far as the pattern goes, but what comes of it can be told
from the run alone: the front of the run up to its last extension, if an extension
stands anywhere but at its first place (`nameOfRun?`).  A mention begins at the
first place of its run or nowhere, and behind the last extension there is nothing
to find (`extensionPlaces_behind_last`).

Main result: `document_mentions_of_runs`.
-/
import AssetAudit.Proofs.Endings
import AssetAudit.Proofs.Spans
import AssetAudit.Proofs.Splitting

namespace AssetAudit

/-! ### Extensions in a run -/

/-- The places at which an extension stands, in any letter case. -/
def extensionPlaces (run : Text) : List Nat :=
  (List.range run.length).filter fun i => Ending.isExtension ((run.drop i).take 4)

/-- The front of a run up to its last extension, if one stands behind the first
place. -/
def nameOfRun? (run : Text) : Option Text :=
  ((extensionPlaces run).filter (0 < ·)).getLast?.map fun i => run.take (i + 4)

/-- The names that the runs of a text give, one for each at most. -/
def namesOfRuns (delimiter : Char) (text : Text) : List Text :=
  (text.splitOn delimiter).filterMap nameOfRun?

/-- An extension stands somewhere in the text. -/
def HoldsExtension (t : Text) : Prop :=
  ∃ front ext back, t = front ++ (ext ++ back) ∧ Ending.isExtension ext = true

section

variable {us y : Text} {i : Nat}

/-- An extension begins with a dot. -/
theorem holdsExtension_of_cons {u : Char} (h : HoldsExtension (u :: us)) (other : u ≠ '.') :
    HoldsExtension us := by
  obtain ⟨front, ext, back, e, isExt⟩ := h
  cases front with
  | nil =>
    obtain ⟨rest, rfl⟩ := Ending.exists_of_isExtension isExt
    exact absurd (List.cons.inj e).1 other
  | cons c front => exact ⟨front, ext, back, (List.cons.inj e).2, isExt⟩

theorem mem_extensionPlaces_iff :
    i ∈ extensionPlaces us ↔ Ending.isExtension ((us.drop i).take 4) = true := by
  rw [extensionPlaces, List.mem_filter, List.mem_range, and_iff_right_iff_imp]
  intro h
  have four := Ending.length_of_isExtension h
  rw [List.length_take, List.length_drop] at four
  omega

theorem le_of_mem_extensionPlaces (h : i ∈ extensionPlaces us) : i + 4 ≤ us.length := by
  have four := Ending.length_of_isExtension (mem_extensionPlaces_iff.mp h)
  rw [List.length_take, List.length_drop] at four
  omega

theorem extensionPlaces_cons (u : Char) (us : Text) :
    extensionPlaces (u :: us) =
      (if Ending.isExtension ((u :: us).take 4) then [0] else []) ++
        (extensionPlaces us).map (· + 1) := by
  rw [extensionPlaces, List.length_cons, List.range_succ_eq_map, List.filter_cons, List.drop_zero,
    List.filter_map]
  split <;> rfl

theorem holdsExtension_iff : HoldsExtension us ↔ extensionPlaces us ≠ [] := by
  constructor
  · rintro ⟨front, ext, back, rfl, isExt⟩
    apply List.ne_nil_of_mem (a := front.length)
    rw [mem_extensionPlaces_iff, List.drop_left, ← Ending.length_of_isExtension isExt,
      List.take_left]
    exact isExt
  · intro some
    obtain ⟨i, mem⟩ := List.exists_mem_of_ne_nil _ some
    refine ⟨us.take i, (us.drop i).take 4, (us.drop i).drop 4, ?_, mem_extensionPlaces_iff.mp mem⟩
    rw [List.take_append_drop, List.take_append_drop]

instance (us : Text) : Decidable (HoldsExtension us) :=
  decidable_of_iff _ holdsExtension_iff.symm

theorem extensionPlaces_eq_nil (h : ¬HoldsExtension us) : extensionPlaces us = [] :=
  not_not.mp (mt holdsExtension_iff.mpr h)

/-- Behind the last extension there is none. -/
theorem extensionPlaces_behind_last (h : (extensionPlaces us).getLast? = some i) :
    extensionPlaces (us.drop (i + 4)) = [] := by
  obtain ⟨before, e⟩ := List.getLast?_eq_some_iff.mp h
  have ascending : (extensionPlaces us).Pairwise (· < ·) := List.pairwise_lt_range.filter _
  rw [List.eq_nil_iff_forall_not_mem]
  intro j mem
  rw [mem_extensionPlaces_iff, List.drop_drop, ← mem_extensionPlaces_iff, e] at mem
  rw [e, List.pairwise_append] at ascending
  rcases List.mem_append.mp mem with earlier | last
  · have := ascending.2.2 _ earlier i (List.mem_singleton_self i)
    omega
  · have := List.mem_singleton.mp last
    omega

/-- What stands in front does not change which extension is the last. -/
theorem getLast?_extensionPlaces_append (front : Text)
    (h : (extensionPlaces y).getLast? = some i) :
    (extensionPlaces (front ++ y)).getLast? = some (front.length + i) := by
  induction front with
  | nil => simpa using h
  | cons u front ih =>
    rw [List.cons_append, extensionPlaces_cons, List.getLast?_append, List.getLast?_map, ih,
      Option.map_some, Option.some_or, List.length_cons, Nat.add_right_comm]

/-- An extension with none behind it is the only one: inside it there is no dot. -/
theorem extensionPlaces_extension {ext : Text} (isExt : Ending.isExtension ext = true)
    (none : extensionPlaces y = []) : extensionPlaces (ext ++ y) = [0] := by
  have inner : ∀ c ∈ ext.tail, ∀ cs, Ending.isExtension ((c :: cs).take 4) = false := by
    intro c mem cs
    rw [← Bool.not_eq_true]
    intro begins
    obtain ⟨_, dot⟩ := Ending.exists_of_isExtension begins
    have folded := congrArg List.tail (Ending.isExtension_iff.mp isExt)
    rw [← List.map_tail] at folded
    have letter := folded ▸ List.mem_map_of_mem (f := Char.toLower) mem
    rw [(List.cons.inj dot).1] at letter
    exact absurd letter (by decide)
  have front : Ending.isExtension ((ext ++ y).take 4) = true := by
    rw [← Ending.length_of_isExtension isExt, List.take_left]
    exact isExt
  match ext, Ending.length_of_isExtension isExt with
  | [a, b, c, d], _ =>
    simp only [List.cons_append, List.nil_append] at front ⊢
    rw [extensionPlaces_cons, extensionPlaces_cons, extensionPlaces_cons, extensionPlaces_cons,
      none, front, inner b (by simp), inner c (by simp), inner d (by simp)]
    rfl

theorem nameOfRun?_cons (u : Char) (us : Text) :
    nameOfRun? (u :: us) = (extensionPlaces us).getLast?.map fun i => u :: us.take (i + 4) := by
  have all : ∀ i ∈ (extensionPlaces us).map (· + 1), decide (0 < i) = true := by simp
  have later : (extensionPlaces (u :: us)).filter (0 < ·) = (extensionPlaces us).map (· + 1) := by
    rw [extensionPlaces_cons, List.filter_append, List.filter_eq_self.mpr all]
    split <;> rfl
  rw [nameOfRun?, later, List.getLast?_map, Option.map_map]
  refine congrArg (Option.map · _) ?_
  funext i
  show (u :: us).take (i + 1 + 4) = _
  rw [Nat.add_right_comm, List.take_succ_cons]

/-- A run gives its front up to an extension, if something stands in front of
the extension and no other is behind it. -/
theorem nameOfRun?_append {v back : Text} (named : hasExtension v = true) (long : 4 < v.length)
    (none : ¬HoldsExtension back) : nameOfRun? (v ++ back) = some v := by
  obtain ⟨front, ext, rfl, folded⟩ := exists_of_endsFolded named
  have isExt := Ending.isExtension_iff.mpr folded
  have four := Ending.length_of_isExtension isExt
  have some : front ≠ [] := by
    rintro rfl
    exact absurd four (Nat.ne_of_gt long)
  obtain ⟨u, front, rfl⟩ := List.exists_cons_of_ne_nil some
  have only : (extensionPlaces (ext ++ back)).getLast? = .some 0 := by
    rw [extensionPlaces_extension isExt (extensionPlaces_eq_nil none)]
    rfl
  rw [List.append_assoc, List.cons_append, nameOfRun?_cons,
    getLast?_extensionPlaces_append front only, Option.map_some, Nat.add_zero, ← four,
    ← List.length_append, ← List.append_assoc, List.take_left]
  rfl

end

/-! ### The pattern in a run -/

theorem isFolded_char {u c : Char} (h : CodeUnit.foldCode c.toNat = c.toNat) :
    CodeUnit.isFolded u c = (u.toLower == c) := by
  rw [CodeUnit.isFolded, h, Bool.eq_iff_iff, beq_iff_eq, beq_iff_eq]
  show CodeUnit.foldCode u.toNat = _ ↔ _
  rw [← toNat_toLower]
  exact Char.toNat_inj

/-- The extension as the pattern of documents looks for it. -/
theorem startsWith_extension (t : Text) :
    startsWith CodeUnit.isFolded ".png".toList t = Ending.isExtension (t.take 4) := by
  have dot : CodeUnit.foldCode '.'.toNat = '.'.toNat := rfl
  have p : CodeUnit.foldCode 'p'.toNat = 'p'.toNat := rfl
  have n : CodeUnit.foldCode 'n'.toNat = 'n'.toNat := rfl
  have g : CodeUnit.foldCode 'g'.toNat = 'g'.toNat := rfl
  match t with
  | [] => rfl
  | [_] | [_, _] | [_, _, _] => simp [startsWith, Ending.isExtension]
  | a :: b :: c :: d :: rest =>
    simp [startsWith, Ending.isExtension, isFolded_char dot, isFolded_char p, isFolded_char n,
      isFolded_char g]

section Search

variable {delimiter : Char} (hd : delimiter.toLower ∉ ".png".toList) {run rest : Text}
  (free : delimiter ∉ run) (ends : ∀ u ∈ rest.head?, u = delimiter)

include hd ends in
/-- An extension does not reach over the end of a run. -/
theorem isExtension_take_append (run : Text) :
    Ending.isExtension ((run ++ rest).take 4) = Ending.isExtension (run.take 4) := by
  by_cases long : 4 ≤ run.length
  · rw [List.take_append_of_le_length long]
  cases rest with
  | nil => rw [List.append_nil]
  | cons u more =>
    obtain rfl := ends u rfl
    have short : Ending.isExtension (run.take 4) = false := by
      rw [← Bool.not_eq_true]
      intro h
      have four := Ending.length_of_isExtension h
      rw [List.length_take] at four
      omega
    rw [short, ← Bool.not_eq_true]
    intro h
    -- the delimiter would be one of the four characters
    obtain ⟨n, e⟩ : ∃ n, 4 - run.length = n + 1 := ⟨3 - run.length, by omega⟩
    have mem : u ∈ (run ++ u :: more).take 4 := by
      rw [List.take_append, e, List.take_succ_cons]
      exact List.mem_append_right _ List.mem_cons_self
    have folded := List.mem_map_of_mem (f := Char.toLower) mem
    rw [Ending.isExtension_iff.mp h] at folded
    exact hd folded

include hd free ends in
/-- The last extension before the next delimiter is the last of the run. -/
theorem lastExtension?_eq :
    lastExtension? delimiter (run ++ rest) = (extensionPlaces run).getLast?.map (· + 4) := by
  induction run with
  | nil =>
    cases rest with
    | nil => rfl
    | cons u more =>
      obtain rfl := ends u rfl
      rw [List.nil_append, lastExtension?, CodeUnit.is_char, beq_self_eq_true, if_pos rfl]
      rfl
  | cons u run ih =>
    obtain ⟨other, free⟩ := not_or.mp (mt List.mem_cons.mpr free)
    rw [List.cons_append, lastExtension?, CodeUnit.is_char, beq_false_of_ne (Ne.symm other),
      if_neg Bool.false_ne_true, ih free, startsWith_extension, ← List.cons_append,
      isExtension_take_append hd ends, extensionPlaces_cons, List.getLast?_append,
      List.getLast?_map]
    cases (extensionPlaces run).getLast? with
    | some i => rfl
    | none =>
      dsimp only [Option.map_none, Option.none_or]
      split <;> rfl

include hd free ends in
/-- What the pattern says at a place of a run, by the extensions behind it. -/
theorem fileNameAt_cons {u : Char} (other : u ≠ delimiter) :
    fileNameAt delimiter (u :: (run ++ rest)) =
      match (extensionPlaces run).getLast? with
      | some i => .mention (u :: run.take (i + 4)) (i + 4 + 1)
      | none => .nothing (run.length + 1) := by
  rw [fileNameAt, CodeUnit.is_char, beq_false_of_ne other, if_neg Bool.false_ne_true,
    lastExtension?_eq hd free ends]
  cases last : (extensionPlaces run).getLast? with
  | some i =>
    have le := le_of_mem_extensionPlaces (List.mem_of_getLast? last)
    dsimp only [Option.map_some]
    rw [List.take_append_of_le_length le]
  | none =>
    have all : ∀ v ∈ run, (!CodeUnit.is v delimiter) = true := by
      intro v hv
      rw [CodeUnit.is_char, beq_false_of_ne (fun (e : v = delimiter) => free (e ▸ hv))]
      rfl
    have stop : rest.takeWhile (!CodeUnit.is · delimiter) = [] := by
      cases rest with
      | nil => rfl
      | cons v more =>
        obtain rfl := ends v rfl
        rw [List.takeWhile_cons, CodeUnit.is_char, beq_self_eq_true]
        rfl
    dsimp only [Option.map_none]
    rw [List.takeWhile_append_of_pos all, stop, List.append_nil]

/-! ### The search through a run -/

include hd free ends in
/-- Where no extension stands behind the first place of a run, all of it is
passed over. -/
theorem namesFrom_of_plain (plain : extensionPlaces run.tail = []) :
    namesFrom (fileNameAt delimiter) 0 (run ++ rest) =
      namesFrom (fileNameAt delimiter) 0 rest := by
  cases run with
  | nil => rfl
  | cons u run =>
    obtain ⟨other, free⟩ := not_or.mp (mt List.mem_cons.mpr free)
    have nothing := fileNameAt_cons hd free ends (Ne.symm other)
    rw [show extensionPlaces run = [] from plain] at nothing
    rw [List.cons_append, (search_of_nothing 0 0 (List.cons_ne_nil _ _) (Nat.succ_pos _) nothing).1,
      List.drop_succ_cons, List.drop_left]

include hd free ends in
/-- A run gives its name, if it has one, and no other. -/
theorem namesFrom_run :
    namesFrom (fileNameAt delimiter) 0 (run ++ rest) =
      (nameOfRun? run).toList ++ namesFrom (fileNameAt delimiter) 0 rest := by
  cases run with
  | nil => rfl
  | cons u run =>
    rw [nameOfRun?_cons]
    cases last : (extensionPlaces run).getLast? with
    | none => exact namesFrom_of_plain hd free ends (List.getLast?_eq_none_iff.mp last)
    | some i =>
      obtain ⟨other, free⟩ := not_or.mp (mt List.mem_cons.mpr free)
      have mention := fileNameAt_cons hd free ends (Ne.symm other)
      rw [last] at mention
      have le := le_of_mem_extensionPlaces (List.mem_of_getLast? last)
      have behind : delimiter ∉ run.drop (i + 4) := fun mem => free (List.mem_of_mem_drop mem)
      have plain : extensionPlaces (run.drop (i + 4)).tail = [] := by
        have none := extensionPlaces_behind_last last
        cases e : run.drop (i + 4) with
        | nil => rfl
        | cons v more =>
          rw [e, extensionPlaces_cons] at none
          exact List.map_eq_nil_iff.mp (List.append_eq_nil_iff.mp none).2
      rw [List.cons_append,
        (search_of_mention 0 0 (List.cons_ne_nil _ _) (Nat.succ_pos _) mention).1,
        List.drop_succ_cons, List.drop_append_of_le_length le,
        namesFrom_of_plain hd behind ends plain]
      rfl

end Search

/-! ### The search through a document -/

section Documents

variable {delimiter : Char}

theorem namesFrom_runs (hd : delimiter.toLower ∉ ".png".toList) {runs : List Text}
    (free : ∀ run ∈ runs, delimiter ∉ run) :
    namesFrom (fileNameAt delimiter) 0 ([delimiter].intercalate runs) =
      runs.filterMap nameOfRun? := by
  induction runs with
  | nil => rfl
  | cons run runs ih =>
    obtain ⟨first, others⟩ := List.forall_mem_cons.mp free
    cases runs with
    | nil =>
      have alone : namesFrom (fileNameAt delimiter) 0 (run ++ []) = _ :=
        namesFrom_run hd first (by simp)
      rw [List.append_nil] at alone
      rw [List.intercalate_singleton, alone, List.filterMap_cons]
      cases nameOfRun? run <;> rfl
    | cons next runs =>
      -- the delimiter itself is passed over
      have nothing (t : Text) : fileNameAt delimiter (delimiter :: t) = .nothing 1 := by
        rw [fileNameAt, CodeUnit.is_char, beq_self_eq_true, if_pos rfl]
      rw [List.intercalate_cons_cons, List.append_assoc, List.singleton_append,
        namesFrom_run hd first (by simp),
        (search_of_nothing 0 0 (List.cons_ne_nil _ _) Nat.one_pos (nothing _)).1, List.drop_one,
        List.tail_cons, ih others, List.filterMap_cons (a := run)]
      cases nameOfRun? run <;> rfl

theorem namesFrom_eq_namesOfRuns (hd : delimiter.toLower ∉ ".png".toList) (text : Text) :
    namesFrom (fileNameAt delimiter) 0 text = namesOfRuns delimiter text := by
  have free : ∀ run ∈ text.splitOn delimiter, delimiter ∉ run := by
    intro run mem held
    rw [List.splitOn_eq_splitOnP] at mem
    simpa using forall_of_mem_splitOnP mem delimiter held
  have names := namesFrom_runs hd free
  rw [List.intercalate_splitOn] at names
  exact names

/-- A run between two delimiters that has a name adds it to the names in front
and behind. -/
theorem namesOfRuns_between {run name : Text} (free : delimiter ∉ run)
    (named : nameOfRun? run = some name) (front back : Text) :
    namesOfRuns delimiter (front ++ delimiter :: (run ++ delimiter :: back)) =
      namesOfRuns delimiter front ++ name :: namesOfRuns delimiter back := by
  rw [namesOfRuns, List.splitOn_append_cons_self, List.splitOn_append_cons_self_of_not_mem free,
    List.filterMap_append, List.filterMap_cons, named]
  rfl

end Documents

/-- **What a document mentions is told run by run.**  The delimiter cuts the text
into runs.  Each run with an extension that does not stand at its first place
gives one name, its front up to the last extension; the others give none.  So a
value with the extension, and with something in front of it, is mentioned as it
is written wherever it stands between two quotes in an interface, or between a
`>` and a closing tag in a property list; the rest of the text mentions what it
would without it. -/
theorem document_mentions_of_runs :
    (∀ text : Text, SourceFormat.interface.mentions text = namesOfRuns '"' text ∧
      SourceFormat.propertyList.mentions text = namesOfRuns '>' text) ∧
    ∀ v : Text, hasExtension v = true → 4 < v.length →
      ('"' ∉ v → ∀ front back,
        SourceFormat.interface.mentions (front ++ '"' :: (v ++ '"' :: back)) =
          SourceFormat.interface.mentions front ++ v :: SourceFormat.interface.mentions back) ∧
      ('>' ∉ v → ∀ tag, '>' ∉ tag → ¬HoldsExtension tag → ∀ front back,
        SourceFormat.propertyList.mentions
            (front ++ '>' :: (v ++ ("</".toList ++ (tag ++ '>' :: back)))) =
          SourceFormat.propertyList.mentions front ++
            v :: SourceFormat.propertyList.mentions back) := by
  have interface (text : Text) : SourceFormat.interface.mentions text = namesOfRuns '"' text :=
    namesFrom_eq_namesOfRuns (by decide) text
  have propertyList (text : Text) :
      SourceFormat.propertyList.mentions text = namesOfRuns '>' text :=
    namesFrom_eq_namesOfRuns (by decide) text
  refine ⟨fun text => ⟨interface text, propertyList text⟩, ?_⟩
  intro v named long
  constructor
  · intro free front back
    have name : nameOfRun? (v ++ []) = some v := nameOfRun?_append named long (by decide)
    rw [List.append_nil] at name
    rw [interface, interface, interface]
    exact namesOfRuns_between free name front back
  · intro free tag freeTag plain front back
    have none : ¬HoldsExtension ("</".toList ++ tag) := fun h =>
      plain (holdsExtension_of_cons (holdsExtension_of_cons h (by decide)) (by decide))
    have free : '>' ∉ v ++ ("</".toList ++ tag) := by
      rw [List.mem_append, List.mem_append, not_or, not_or]
      exact ⟨free, by decide, freeTag⟩
    rw [propertyList, propertyList, propertyList, ← List.append_assoc "</".toList,
      ← List.append_assoc v]
    exact namesOfRuns_between free (nameOfRun?_append named long none) front back

/-- An attribute, and a value over two lines.  What stands around them mentions
one name in front and none behind, for there the extension stands at the first
place of its run. -/
theorem document_mentions_of_values :
    let quoted := "Tab.PNG.png".toList
    let value := "y\nz.pNg".toList
    SourceFormat.interface.mentions ("<i a=\"x.png\" b=".toList ++
        '"' :: (quoted ++ '"' :: " c=\".png\"/>".toList)) = ["x.png".toList, quoted] ∧
      SourceFormat.propertyList.mentions ("<a>x.pngs</a><b".toList ++
        '>' :: (value ++ ("</".toList ++ ("b".toList ++ '>' :: "<c>.png</c>".toList)))) =
          ["x.png".toList, value] := by
  intro quoted value
  obtain ⟨_, values⟩ := document_mentions_of_runs
  obtain ⟨inQuotes, _⟩ := values quoted (by decide) (by decide)
  obtain ⟨_, inElement⟩ := values value (by decide) (by decide)
  refine ⟨(inQuotes (by decide) _ _).trans (by decide), ?_⟩
  exact (inElement (by decide) "b".toList (by decide) (by decide) _ _).trans (by decide)

end AssetAudit

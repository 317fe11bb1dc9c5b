/-
AssetAudit/Proofs/Bytewise.lean

Mentions in the bytes of a source.

The text of a source is read from its bytes as UTF-8 or as Latin-1, and then
searched.  The patterns can as well be read on the bytes: UTF-8 spells characters
by bytes (`spells_utf8`), and Latin-1 spells bytes by characters (`spells_latin1`),
so `SourceFormat.mentions_flatMap` says of both readings that they mention what the
bytes mention (`mentions_of_decode?`, `mentions_latin1`).

Which bytes stand for the characters beyond ASCII, and whether they are well formed,
does not matter for where the mentions are: bytes beyond ASCII may be exchanged for
others (`spans_of_alike`), although with them the file may have another encoding.

Main result: `SourceFormat.mentions_of_encodings`.
-/
import AssetAudit.Proofs.Decoding
import AssetAudit.Proofs.Spans
import AssetAudit.Source.Encoding
import Mathlib.Data.List.Forall2

namespace AssetAudit

open CodeUnit

/-! ### Bytes and characters -/

section

variable {α β : Type} [CodeUnit α] [CodeUnit β] {g : α → β}

/-- Units that are exchanged one for one are a spelling, if those of ASCII keep their
number and no other gets such a number. -/
theorem spells_singleton (low : ∀ u, code u < 0x80 → code (g u) = code u)
    (high : ∀ u, 0x80 ≤ code u → 0x80 ≤ code (g u)) : Spells fun u => [g u] := by
  constructor
  · intro u hu
    exact ⟨g u, rfl, low u hu⟩
  · intro u hu
    exact ⟨g u, [], rfl, high u hu, by simp⟩

/-- Where units are exchanged one for one, the openers stay plain. -/
theorem plainOpeners_map (h : Spells fun u => [g u]) (us : List α) :
    PlainOpeners (us.map g) ↔ PlainOpeners us := by
  constructor
  · intro plain
    rw [List.map_eq_flatMap] at plain
    exact plainOpeners_of_flatMap h plain
  · intro plain t ht
    rw [List.map_tails, List.mem_map] at ht
    obtain ⟨t, suffix, rfl⟩ := ht
    rw [List.map_eq_flatMap]
    exact (isPlainBehind_flatMap h t).mpr (plain t suffix)

/-- Where units are exchanged one for one, the spans stay. -/
theorem SourceFormat.spans_map (h : Spells fun u => [g u]) (f : SourceFormat) {us : List α}
    (plain : f = .swift → PlainOpeners us) : f.spans (us.map g) = f.spans us := by
  rw [List.map_eq_flatMap, f.spans_flatMap h plain]
  conv_rhs => rw [← List.map_id (f.spans us)]
  refine List.map_congr_left fun s hs => ?_
  have within := stop_le_length hs
  rw [Span.stop] at within
  rw [Span.spelled, ← List.map_eq_flatMap, ← List.map_eq_flatMap, List.length_map, List.length_map,
    Span.slice, List.length_take_of_le (by omega), List.length_take, List.length_drop,
    Nat.min_eq_left (by omega)]
  rfl

end

/-- Latin-1 spells a byte by the character with its number. -/
theorem spells_latin1 : Spells fun b : UInt8 => [Char.ofUInt8 b] := by
  have same : ∀ b : UInt8, code (Char.ofUInt8 b) = code b := fun b => UInt8.toNat_toUInt32 b
  refine spells_singleton (fun b _ => same b) fun b high => ?_
  rw [same]
  exact high

/-- UTF-8 spells a character by its bytes. -/
theorem spells_utf8 : Spells String.utf8EncodeChar := by
  constructor
  · intro c low
    refine ⟨UInt8.ofNat c.toNat, Utf8.encodeChar_ascii low, ?_⟩
    have low : c.toNat < 0x80 := low
    exact Utf8.toNat_of_lt (by omega)
  · intro c high
    obtain ⟨b, bs, e⟩ := List.exists_cons_of_ne_nil (Utf8.encodeChar_ne_nil c)
    have beyond := Utf8.encodeChar_high high
    rw [e, List.forall_mem_cons] at beyond
    exact ⟨b, bs, e, beyond⟩

/-! ### Bytes beyond ASCII -/

/-- Two bytes are the same, or both are beyond ASCII. -/
def Alike (x y : UInt8) : Prop :=
  x = y ∨ 0x80 ≤ x.toNat ∧ 0x80 ≤ y.toNat

/-- All bytes beyond ASCII look the same. -/
def masked (x : UInt8) : UInt8 :=
  if x.toNat < 0x80 then x else 0x80

theorem masked_of_alike {x y : UInt8} (h : Alike x y) : masked x = masked y := by
  rcases h with rfl | ⟨hx, hy⟩
  · rfl
  · rw [masked, if_neg (Nat.not_lt_of_le hx), masked, if_neg (Nat.not_lt_of_le hy)]

theorem map_masked_of_alike {b b' : Bytes} (h : List.Forall₂ Alike b b') :
    b.map masked = b'.map masked := by
  induction h with
  | nil => rfl
  | cons first _ ih => rw [List.map_cons, List.map_cons, masked_of_alike first, ih]

theorem spells_masked : Spells fun x : UInt8 => [masked x] := by
  refine spells_singleton (fun x low => ?_) fun x high => ?_
  · have low : x.toNat < 0x80 := low
    rw [masked, if_pos low]
  · have high : ¬x.toNat < 0x80 := Nat.not_lt_of_le high
    rw [masked, if_neg high]
    decide

variable {b b' : Bytes} {f : SourceFormat}

theorem plainOpeners_of_alike (h : List.Forall₂ Alike b b') (plain : PlainOpeners b) :
    PlainOpeners b' := by
  rw [← plainOpeners_map spells_masked, ← map_masked_of_alike h, plainOpeners_map spells_masked]
  exact plain

/-- Where bytes beyond ASCII are exchanged for others, the mentions stay at their
places. -/
theorem spans_of_alike (h : List.Forall₂ Alike b b') (plain : f = .swift → PlainOpeners b) :
    f.spans b' = f.spans b := by
  have plain' : f = .swift → PlainOpeners b' := fun swift => plainOpeners_of_alike h (plain swift)
  calc f.spans b' = f.spans (b'.map masked) := (f.spans_map spells_masked plain').symm
    _ = f.spans (b.map masked) := by rw [map_masked_of_alike h]
    _ = f.spans b := f.spans_map spells_masked plain

/-! ### The readings of a source -/

/-- The Latin-1 reading mentions what the bytes mention. -/
theorem mentions_latin1 (plain : f = .swift → PlainOpeners b) :
    f.mentions (decodeLatin1 b) = (f.mentions b).map decodeLatin1 := by
  have spelled : ∀ bs : Bytes, decodeLatin1 bs = bs.flatMap fun x => [Char.ofUInt8 x] :=
    fun bs => List.map_eq_flatMap
  rw [spelled, f.mentions_flatMap spells_latin1 plain]
  exact List.map_congr_left fun name _ => (spelled name).symm

/-- The bytes mention what the UTF-8 reading mentions. -/
theorem mentions_of_decode? {cs : Text} (h : Utf8.decode? b = some cs)
    (plain : f = .swift → PlainOpeners b) : f.mentions b = (f.mentions cs).map Utf8.encode := by
  rw [Utf8.decode?_eq_some_iff] at h
  subst h
  refine f.mentions_flatMap spells_utf8 fun swift => ?_
  exact plainOpeners_of_flatMap spells_utf8 (plain swift)

/-- The text of a source mentions what its bytes mention. -/
theorem mentions_sourceText (plain : f = .swift → PlainOpeners b) :
    f.mentions (sourceText b) = (f.mentions b).map (Encoding.detect b).decode := by
  cases read : Utf8.decode? b with
  | none =>
    rw [sourceText_of_decode?_eq_none read, mentions_latin1 plain, Encoding.detect, read]
    rfl
  | some cs =>
    have back : (fun name => Utf8.decodeLossy (Utf8.encode name)) = id :=
      funext Utf8.decodeLossy_encode
    rw [sourceText_of_decode? read, mentions_of_decode? read plain, List.map_map, Encoding.detect,
      read]
    show f.mentions cs = (f.mentions cs).map fun name => Utf8.decodeLossy (Utf8.encode name)
    rw [back, List.map_id]

/-- **The encoding does not matter for what a source mentions.**  Let a source have
the bytes `b`; if it is of Swift, no byte beyond ASCII stands between an occurrence of
`UIImage(named:` and the next quote.

* The names that its text mentions are those that its bytes mention, each decoded as
  the text is.
* The names that its bytes mention stand in spans that follow one another.
* As Latin-1, it mentions the names in these spans decoded as Latin-1.
* If it is well-formed UTF-8, it mentions as many names as UTF-8, and these are the
  names in the same spans, each well-formed UTF-8 and decoded as that.
* Bytes beyond ASCII may be exchanged for others, well formed or not: the names that
  are then mentioned stand in the same spans. -/
theorem SourceFormat.mentions_of_encodings (f : SourceFormat) (b : Bytes)
    (plain : f = .swift → PlainOpeners b) :
    f.mentions (sourceText b) = (f.mentions b).map (Encoding.detect b).decode ∧
    f.mentions b = (f.spans b).map (·.slice b) ∧
    (∀ s ∈ f.spans b, s.stop ≤ b.length) ∧
    (f.spans b).Pairwise (fun s t => s.stop ≤ t.start) ∧
    f.mentions (decodeLatin1 b) = (f.spans b).map (fun s => decodeLatin1 (s.slice b)) ∧
    (∀ cs, Utf8.decode? b = some cs →
      (f.mentions cs).length = (f.mentions (decodeLatin1 b)).length ∧
      (f.mentions cs).map some = (f.spans b).map (fun s => Utf8.decode? (s.slice b))) ∧
    (∀ b', List.Forall₂ Alike b b' →
      f.mentions (sourceText b') =
        (f.spans b).map (fun s => (Encoding.detect b').decode (s.slice b'))) := by
  have spans := f.mentions_eq_spans b
  have latin1 : f.mentions (decodeLatin1 b) =
      (f.spans b).map (fun s => decodeLatin1 (s.slice b)) := by
    rw [mentions_latin1 plain, spans, List.map_map]
    rfl
  refine ⟨mentions_sourceText plain, spans, fun s hs => stop_le_length hs, f.pairwise_spans b,
    latin1, ?_, ?_⟩
  · intro cs read
    have utf8 : (f.mentions cs).map some = (f.spans b).map (fun s => Utf8.decode? (s.slice b)) := by
      calc (f.mentions cs).map some
          = ((f.mentions cs).map Utf8.encode).map Utf8.decode? := by
            rw [List.map_map]
            exact List.map_congr_left fun name _ => (Utf8.decode?_encode name).symm
        _ = (f.spans b).map (fun s => Utf8.decode? (s.slice b)) := by
            rw [← mentions_of_decode? read plain, spans, List.map_map]
            rfl
    refine ⟨?_, utf8⟩
    have len := congrArg List.length utf8
    rw [List.length_map, List.length_map] at len
    rw [len, latin1, List.length_map]
  · intro b' alike
    have plain' : f = .swift → PlainOpeners b' :=
      fun swift => plainOpeners_of_alike alike (plain swift)
    rw [mentions_sourceText plain', f.mentions_eq_spans b', spans_of_alike alike plain,
      List.map_map]
    rfl

/-- A source that names an image with a letter beyond ASCII, as UTF-8. -/
def cafeSource : Bytes := Utf8.encode "UIImage(named: \"café\")".toList

theorem mentions_of_cafeSource :
    PlainOpeners cafeSource ∧
    SourceFormat.swift.spans cafeSource = [⟨16, 5⟩] ∧
    SourceFormat.swift.mentions (sourceText cafeSource) =
      (SourceFormat.swift.mentions cafeSource).map (Encoding.detect cafeSource).decode ∧
    SourceFormat.swift.mentions (sourceText cafeSource) = ["café".toList] ∧
    SourceFormat.swift.mentions (decodeLatin1 cafeSource) = ["cafÃ©".toList] := by
  have plain : PlainOpeners cafeSource := by decide +kernel
  obtain ⟨decoded, sliced, _, _, latin1, _⟩ :=
    SourceFormat.swift.mentions_of_encodings cafeSource fun _ => plain
  have spans : SourceFormat.swift.spans cafeSource = [⟨16, 5⟩] := by decide +kernel
  refine ⟨plain, spans, decoded, ?_, ?_⟩
  · rw [decoded, sliced, spans]
    decide +kernel
  · rw [latin1, spans]
    decide +kernel

end AssetAudit

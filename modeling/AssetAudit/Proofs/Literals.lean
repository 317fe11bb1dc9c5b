/-
AssetAudit/Proofs/Literals.lean

Code as fillers and literals.

Of a source in code the search looks at an opener, a name and the closing quote,
which make a literal, and at nothing else.  What stands between literals is
filler: any text in which an opener, if there is one, has a quote right behind it,
so that its name would be empty (`IsFiller`).

What carries this is how openers can meet in a text (`Openers`).  An opener holds
one quote, at its end, and does not end in another opener.  So an opener that
begins in front of another is over before the other begins (`Openers.apart`):
what is laid out around a literal can neither take part of it away nor be taken
for the beginning of another.

* `Openers.namesFrom_layout` — the search gives the names that are laid out, by
  induction on the literals;
* `Openers.exists_layout` — every text is laid out in this way, but for a last
  opener that may never be closed, by induction on the text.

Main result: `code_mentions_of_layout`.
-/
import AssetAudit.Proofs.Spans

namespace AssetAudit

open CodeUnit

variable {isOpener : Text → Prop} {opener? : Text → Option Nat} {t f o rest name last : Text}

/-! ### Quotes -/

theorem not_is_quote (free : '"' ∉ t) : ∀ c ∈ t, (!is c '"') = true := by
  intro c hc
  rw [is_char, Bool.not_eq_true', beq_eq_false_iff_ne]
  rintro rfl
  exact free hc

theorem takeWhile_quote {front : Text} (free : '"' ∉ front) (rest : Text) :
    (front ++ '"' :: rest).takeWhile (!is · '"') = front := by
  rw [List.takeWhile_append_of_pos (not_is_quote free),
    List.takeWhile_cons_of_neg (p := (!is · '"')) (by simp), List.append_nil]

/-- The first quote of a text divides it in one way. -/
theorem eq_of_append_quote {front front' rest' : Text} (free : '"' ∉ front)
    (free' : '"' ∉ front') (e : front ++ '"' :: rest = front' ++ '"' :: rest') :
    front = front' ∧ rest = rest' := by
  have fronts : front = front' := by
    rw [← takeWhile_quote free rest, e, takeWhile_quote free']
  subst fronts
  exact ⟨rfl, (List.cons.inj (List.append_cancel_left e)).2⟩

theorem quotedAt_append (written : name ≠ []) (free : '"' ∉ name) (rest : Text) :
    quotedAt (name ++ '"' :: rest) = some name := by
  simp only [quotedAt]
  rw [takeWhile_quote free, List.drop_left, List.isEmpty_eq_false_iff.mpr written]
  rfl

theorem quotedAt_of_head (quote : t.head? = some '"') : quotedAt t = none := by
  obtain ⟨rest, rfl⟩ := List.head?_eq_some_iff.mp quote
  rfl

theorem quotedAt_of_not_mem (free : '"' ∉ t) : quotedAt t = none := by
  simp only [quotedAt]
  rw [List.takeWhile_eq_self_iff.mpr (not_is_quote free), List.drop_length]
  simp [startsWith]

/-! ### Openers -/

/-- What is to be known of openers and of the pattern that looks for them. -/
structure Openers (isOpener : Text → Prop) (opener? : Text → Option Nat) : Prop where
  /-- The pattern sees an opener where one stands. -/
  opener?_iff : ∀ {t n}, opener? t = some n ↔ ∃ o rest, isOpener o ∧ t = o ++ rest ∧ n = o.length
  /-- The one quote of an opener is at its end, behind something else. -/
  quoted : ∀ {o}, isOpener o → ∃ word, word ≠ [] ∧ '"' ∉ word ∧ o = word ++ ['"']
  /-- No opener ends in another. -/
  eq_of_suffix : ∀ {o o'}, isOpener o → isOpener o' → o' <:+ o → o' = o

namespace Openers

variable (h : Openers isOpener opener?)

include h

theorem quote_mem (ho : isOpener o) : '"' ∈ o := by
  obtain ⟨word, _, _, rfl⟩ := h.quoted ho
  exact List.mem_append_right word (List.mem_singleton_self _)

theorem ne_nil (ho : isOpener o) : o ≠ [] :=
  List.ne_nil_of_mem (h.quote_mem ho)

theorem head?_ne_quote (ho : isOpener o) (rest : Text) : (o ++ rest).head? ≠ some '"' := by
  obtain ⟨word, some, free, rfl⟩ := h.quoted ho
  obtain ⟨c, word, rfl⟩ := List.exists_cons_of_ne_nil some
  rintro ⟨⟩
  exact free List.mem_cons_self

/-- **Openers do not overlap.**  What stands in front of an opener holds all of an
opener that begins there. -/
theorem apart {front o' more : Text} (ho : isOpener o) (ho' : isOpener o')
    (e : o ++ rest = front ++ (o' ++ more)) : front = [] ∨ ∃ back, front = o ++ back := by
  rcases List.append_eq_append_iff.mp e with ⟨back, whole, _⟩ | ⟨shared, rfl, behind⟩
  · exact .inr ⟨back, whole⟩
  rcases List.eq_nil_or_concat shared with rfl | ⟨w, q, rfl⟩
  · exact .inr ⟨[], by simp⟩
  left
  -- what the two share ends in the quote of the first, so it is all of the second
  obtain ⟨word, _, free, ends⟩ := h.quoted ho
  obtain ⟨word', _, free', rfl⟩ := h.quoted ho'
  rw [List.concat_eq_append, ← List.append_assoc] at ends
  obtain ⟨rfl, rfl⟩ := List.append_singleton_inj.mp ends
  rw [List.concat_eq_append, List.append_assoc, List.append_assoc] at behind
  obtain ⟨rfl, _⟩ := eq_of_append_quote free'
    (fun mem => free (List.mem_append_right front mem)) behind
  have whole := h.eq_of_suffix ho ho' ⟨front, by simp⟩
  simpa using whole

/-- At one place of a text begins one opener at most. -/
theorem eq_of_append {o' rest' : Text} (ho : isOpener o) (ho' : isOpener o')
    (e : o ++ rest = o' ++ rest') : rest = rest' := by
  obtain ⟨word, _, free, rfl⟩ := h.quoted ho
  obtain ⟨word', _, free', rfl⟩ := h.quoted ho'
  rw [List.append_assoc, List.append_assoc] at e
  exact (eq_of_append_quote free free' e).2

/-- Where no opener with a name begins, nothing is mentioned. -/
theorem namesFrom_cons {c : Char}
    (closed : ∀ o rest, isOpener o → c :: t = o ++ rest → quotedAt rest = none) :
    namesFrom (literalAt opener?) 0 (c :: t) = namesFrom (literalAt opener?) 0 t := by
  have nothing : literalAt opener? (c :: t) = .nothing 1 := by
    rw [literalAt]
    cases opens : opener? (c :: t) with
    | none => rfl
    | some n =>
      obtain ⟨o, rest, ho, e, rfl⟩ := h.opener?_iff.mp opens
      dsimp only
      rw [e, List.drop_left, closed o rest ho e]
  exact (search_of_nothing 0 0 (List.cons_ne_nil c t) Nat.one_pos nothing).1

/-- A literal gives its name. -/
theorem namesFrom_literal (ho : isOpener o) (written : name ≠ []) (free : '"' ∉ name)
    (rest : Text) :
    namesFrom (literalAt opener?) 0 (o ++ (name ++ '"' :: rest)) =
      name :: namesFrom (literalAt opener?) 0 rest := by
  have opens : opener? (o ++ (name ++ '"' :: rest)) = some o.length :=
    h.opener?_iff.mpr ⟨o, _, ho, rfl, rfl⟩
  have mention : literalAt opener? (o ++ (name ++ '"' :: rest)) =
      .mention name (o.length + name.length + 1) := by
    rw [literalAt, opens]
    dsimp only
    rw [List.drop_left, quotedAt_append written free]
  have nonempty : o ++ (name ++ '"' :: rest) ≠ [] :=
    List.append_ne_nil_of_left_ne_nil (h.ne_nil ho) _
  have behind : (o ++ (name ++ '"' :: rest)).drop (o.length + name.length + 1) = rest := by
    rw [Nat.add_assoc, List.drop_length_add_append, List.drop_length_add_append]
    rfl
  rw [(search_of_mention 0 0 nonempty (Nat.succ_pos _) mention).1, behind]

end Openers

/-! ### Layouts -/

/-- Every opener in the text has a quote right behind it, in the text. -/
def IsFiller (isOpener : Text → Prop) (f : Text) : Prop :=
  ∀ front o back, isOpener o → f = front ++ (o ++ back) → back.head? = some '"'

/-- A literal, and the filler in front of it. -/
structure Literal (isOpener : Text → Prop) where
  filler : Text
  opener : Text
  name : Text
  isFiller : IsFiller isOpener filler
  opens : isOpener opener
  written : name ≠ []
  unquoted : '"' ∉ name

/-- The text of a literal with its filler. -/
def Literal.text (l : Literal isOpener) : Text :=
  l.filler ++ (l.opener ++ (l.name ++ ['"']))

/-- The text of literals, and what stands behind the last of them. -/
def layout (ls : List (Literal isOpener)) (last : Text) : Text :=
  ls.flatMap Literal.text ++ last

theorem layout_cons (l : Literal isOpener) (ls : List (Literal isOpener)) (last : Text) :
    layout (l :: ls) last = l.filler ++ (l.opener ++ (l.name ++ '"' :: layout ls last)) := by
  simp [layout, Literal.text]

/-- The text can stand behind the last literal: it is filler, or filler and then an
opener that is never closed. -/
def EndsLayout (isOpener : Text → Prop) (last : Text) : Prop :=
  IsFiller isOpener last ∨
    ∃ f o back, IsFiller isOpener f ∧ isOpener o ∧ '"' ∉ back ∧ last = f ++ (o ++ back)

/-- A filler can end in front of the text: it is empty or begins with an opener. -/
def EndsFiller (isOpener : Text → Prop) (t : Text) : Prop :=
  t = [] ∨ ∃ o rest, isOpener o ∧ t = o ++ rest

theorem IsFiller.tail {c : Char} (filler : IsFiller isOpener (c :: f)) : IsFiller isOpener f := by
  rintro front o back ho rfl
  exact filler (c :: front) o back ho rfl

namespace Openers

variable (h : Openers isOpener opener?)

include h

/-- An opener that begins in a filler has a quote right behind it. -/
theorem head?_behind {c : Char} (filler : IsFiller isOpener (c :: f))
    (ends : EndsFiller isOpener t) (ho : isOpener o) (e : c :: f ++ t = o ++ rest) :
    rest.head? = some '"' := by
  obtain ⟨back, inside⟩ : ∃ back, c :: f = o ++ back := by
    rcases ends with rfl | ⟨o', more, ho', rfl⟩
    · exact ⟨rest, by rw [← e, List.append_nil]⟩
    · exact (h.apart ho ho' e.symm).resolve_left (List.cons_ne_nil c f)
  have quote := filler [] o back ho inside
  rw [inside, List.append_assoc] at e
  rw [← List.append_cancel_left e, List.head?_append, quote]
  rfl

/-- **Nothing is mentioned in a filler.** -/
theorem namesFrom_filler (filler : IsFiller isOpener f) (ends : EndsFiller isOpener t) :
    namesFrom (literalAt opener?) 0 (f ++ t) = namesFrom (literalAt opener?) 0 t := by
  induction f with
  | nil => rfl
  | cons c f ih =>
    rw [List.cons_append, h.namesFrom_cons, ih filler.tail]
    intro o rest ho e
    exact quotedAt_of_head (h.head?_behind filler ends ho e)

/-- Behind the first letter of an opener that is not closed there are no openers. -/
theorem isFiller_behind {c : Char} {back : Text} (ho : isOpener (c :: o)) (free : '"' ∉ back) :
    IsFiller isOpener (o ++ back) := by
  intro front o' more ho' e
  have whole : c :: o ++ back = (c :: front) ++ (o' ++ more) := congrArg (c :: ·) e
  obtain ⟨shared, inside⟩ := (h.apart ho ho' whole).resolve_left (List.cons_ne_nil c front)
  rw [inside, List.append_assoc] at whole
  rw [List.append_cancel_left whole] at free
  exact absurd (List.mem_append_right shared (List.mem_append_left more (h.quote_mem ho'))) free

theorem namesFrom_of_filler (filler : IsFiller isOpener f) :
    namesFrom (literalAt opener?) 0 f = [] := by
  have none := h.namesFrom_filler filler (.inl rfl)
  rwa [List.append_nil] at none

/-- An opener that is not closed gives no name. -/
theorem namesFrom_unclosed {back : Text} (ho : isOpener o) (free : '"' ∉ back) :
    namesFrom (literalAt opener?) 0 (o ++ back) = [] := by
  obtain ⟨c, o, rfl⟩ := List.exists_cons_of_ne_nil (h.ne_nil ho)
  rw [List.cons_append, h.namesFrom_cons, h.namesFrom_of_filler (h.isFiller_behind ho free)]
  intro o' rest ho' e
  rw [← h.eq_of_append ho ho' e]
  exact quotedAt_of_not_mem free

/-- Nothing is mentioned behind the last literal. -/
theorem namesFrom_last (ends : EndsLayout isOpener last) :
    namesFrom (literalAt opener?) 0 last = [] := by
  rcases ends with filler | ⟨f, o, back, filler, ho, free, rfl⟩
  · exact h.namesFrom_of_filler filler
  · rw [h.namesFrom_filler filler (.inr ⟨o, back, ho, rfl⟩), h.namesFrom_unclosed ho free]

/-- **The search gives the names that are laid out.** -/
theorem namesFrom_layout (ls : List (Literal isOpener)) (ends : EndsLayout isOpener last) :
    namesFrom (literalAt opener?) 0 (layout ls last) = ls.map Literal.name := by
  induction ls with
  | nil => exact h.namesFrom_last ends
  | cons l ls ih =>
    rw [layout_cons, h.namesFrom_filler l.isFiller (.inr ⟨l.opener, _, l.opens, rfl⟩),
      h.namesFrom_literal l.opens l.written l.unquoted, ih, List.map_cons]

theorem head?_ne_quote_of_ends (ends : EndsFiller isOpener t) : t.head? ≠ some '"' := by
  rcases ends with rfl | ⟨o, rest, ho, rfl⟩
  · exact nofun
  · exact h.head?_ne_quote ho rest

theorem isFiller_nil : IsFiller isOpener [] := by
  intro front o back ho e
  obtain ⟨_, behind⟩ := List.append_eq_nil_iff.mp e.symm
  exact absurd (List.append_eq_nil_iff.mp behind).1 (h.ne_nil ho)

/-- A filler gets longer at the front as long as no opener begins there, or one with
a quote right behind it. -/
theorem isFiller_cons {c : Char} (filler : IsFiller isOpener f) (ends : EndsFiller isOpener t)
    (front : ∀ o rest, isOpener o → c :: (f ++ t) = o ++ rest → rest.head? = some '"') :
    IsFiller isOpener (c :: f) := by
  intro before o back ho e
  cases before with
  | cons d before => exact filler before o back ho (List.cons.inj e).2
  | nil =>
    have quote := front o (back ++ t) ho (by rw [← List.cons_append, e]; simp)
    cases back with
    | nil => exact absurd quote (h.head?_ne_quote_of_ends ends)
    | cons d back => exact quote

/-- Whether a text is filler can be told by trying the pattern at each place. -/
theorem isFiller_iff : IsFiller isOpener f ↔
    ∀ t ∈ f.tails, ∀ n, opener? t = some n → (t.drop n).head? = some '"' := by
  constructor
  · intro filler t ht n opens
    obtain ⟨front, rfl⟩ := (List.mem_tails t f).mp ht
    obtain ⟨o, back, ho, rfl, rfl⟩ := h.opener?_iff.mp opens
    rw [List.drop_left]
    exact filler front o back ho rfl
  · rintro tried front o back ho rfl
    have quote := tried (o ++ back) ((List.mem_tails _ _).mpr (List.suffix_append _ _)) o.length
      (h.opener?_iff.mpr ⟨o, back, ho, rfl, rfl⟩)
    rwa [List.drop_left] at quote

/-- Every text ends a layout, or begins with a literal behind its filler. -/
theorem endsLayout_or_literal (t : Text) :
    EndsLayout isOpener t ∨ ∃ (l : Literal isOpener) (rest : Text),
      t = l.filler ++ (l.opener ++ (l.name ++ '"' :: rest)) := by
  induction t with
  | nil => exact .inl (.inl h.isFiller_nil)
  | cons c t ih =>
    by_cases front : ∀ o rest, isOpener o → c :: t = o ++ rest → rest.head? = some '"'
    · -- what is first in the rest of the text gets a filler that is one longer
      rcases ih with (filler | ⟨f, o, back, filler, ho, free, rfl⟩) | ⟨l, rest, rfl⟩
      · refine .inl (.inl (h.isFiller_cons filler (.inl rfl) ?_))
        rwa [List.append_nil]
      · have longer := h.isFiller_cons filler (.inr ⟨o, back, ho, rfl⟩) front
        exact .inl (.inr ⟨c :: f, o, back, longer, ho, free, rfl⟩)
      · have longer := h.isFiller_cons l.isFiller (.inr ⟨l.opener, _, l.opens, rfl⟩) front
        exact .inr ⟨{ l with filler := c :: l.filler, isFiller := longer }, rest, rfl⟩
    · -- an opener begins here, and it is closed behind a name or not at all
      push Not at front
      obtain ⟨o, rest, ho, e, other⟩ := front
      by_cases quote : '"' ∈ rest
      · obtain ⟨name, more, rfl, free⟩ := List.eq_append_cons_of_mem quote
        have written : name ≠ [] := by
          rintro rfl
          exact other rfl
        exact .inr ⟨⟨[], o, name, h.isFiller_nil, ho, written, free⟩, more, e⟩
      · exact .inl (.inr ⟨[], o, rest, h.isFiller_nil, ho, quote, e⟩)

/-- **Every text is laid out.** -/
theorem exists_layout (t : Text) :
    ∃ (ls : List (Literal isOpener)) (last : Text), t = layout ls last ∧
      EndsLayout isOpener last := by
  generalize len : t.length = n
  induction n using Nat.strongRecOn generalizing t with
  | ind n ih =>
    rcases h.endsLayout_or_literal t with ends | ⟨l, rest, rfl⟩
    · exact ⟨[], t, rfl, ends⟩
    · have shorter : rest.length < n := by
        rw [← len]
        simp only [List.length_append, List.length_cons]
        omega
      obtain ⟨ls, last, rfl, ends⟩ := ih rest.length shorter rest rfl
      exact ⟨l :: ls, last, (layout_cons l ls last).symm, ends⟩

end Openers

/-! ### The openers of the formats -/

/-- What a format of code writes in front of a name, with the opening quote. -/
def SourceFormat.IsOpener : SourceFormat → Text → Prop
  | .objectiveC, o => o = objectiveCWord
  | .swift, o => ∃ blanks : Text, (∀ c ∈ blanks, isBlank c = true) ∧
      o = swiftWord ++ (blanks ++ ['"'])
  | .interface, _ | .propertyList, _ => False

theorem startsWith_is_iff {word : Text} : startsWith is word t = true ↔ word <+: t := by
  rw [startsWith_is_eq_isPrefixOf, List.isPrefixOf_iff_prefix]

theorem openers_objectiveC : Openers SourceFormat.objectiveC.IsOpener objectiveCOpener? where
  opener?_iff := by
    intro t n
    rw [objectiveCOpener?_eq, Option.ite_none_right_eq_some, startsWith_is_iff]
    constructor
    · rintro ⟨⟨rest, rfl⟩, ⟨⟩⟩
      exact ⟨_, rest, rfl, rfl, rfl⟩
    · rintro ⟨o, rest, rfl, rfl, rfl⟩
      exact ⟨⟨rest, rfl⟩, rfl⟩
  quoted := by
    rintro o rfl
    exact ⟨"imageNamed:@".toList, by decide, by decide, rfl⟩
  eq_of_suffix := by
    rintro o o' rfl rfl _
    rfl

instance (f : Text) : Decidable (IsFiller SourceFormat.objectiveC.IsOpener f) :=
  decidable_of_iff _ openers_objectiveC.isFiller_iff.symm

/-- The pattern of Swift passes over all the blanks behind the word. -/
theorem swiftOpener?_append {blanks : Text} (blank : ∀ c ∈ blanks, isBlank c = true)
    (rest : Text) : swiftOpener? (swiftWord ++ (blanks ++ '"' :: rest)) =
      some (swiftWord.length + blanks.length + 1) := by
  have visible : ¬isBlank '"' = true := by decide
  have quote : startsWith is ['"'] ('"' :: rest) = true := startsWith_is_iff.mpr ⟨rest, rfl⟩
  have count : blanksBehind (swiftWord ++ (blanks ++ '"' :: rest)) = blanks.length := by
    rw [blanksBehind, List.drop_left, List.takeWhile_append_of_pos blank,
      List.takeWhile_cons_of_neg visible, List.append_nil]
  rw [swiftOpener?_eq, if_pos (startsWith_is_iff.mpr ⟨_, rfl⟩), count, List.drop_left,
    List.drop_left, if_pos quote]

theorem eq_of_swiftOpener? {n : Nat} (opens : swiftOpener? t = some n) :
    ∃ blanks rest : Text, (∀ c ∈ blanks, isBlank c = true) ∧
      t = swiftWord ++ (blanks ++ '"' :: rest) ∧ n = swiftWord.length + blanks.length + 1 := by
  rw [swiftOpener?_eq, Option.ite_none_right_eq_some, Option.ite_none_right_eq_some,
    startsWith_is_iff, startsWith_is_iff] at opens
  obtain ⟨⟨behind, rfl⟩, ⟨rest, e⟩, ⟨⟩⟩ := opens
  rw [blanksBehind, List.drop_left, drop_length_takeWhile] at e
  refine ⟨behind.takeWhile isBlank, rest, fun c hc => List.mem_takeWhile_imp hc, ?_, ?_⟩
  · have whole := List.takeWhile_append_dropWhile (p := isBlank) (l := behind)
    rw [← e] at whole
    rw [← List.singleton_append, whole]
  · rw [blanksBehind, List.drop_left]

theorem openers_swift : Openers SourceFormat.swift.IsOpener swiftOpener? where
  opener?_iff := by
    intro t n
    constructor
    · intro opens
      obtain ⟨blanks, rest, blank, rfl, rfl⟩ := eq_of_swiftOpener? opens
      refine ⟨_, rest, ⟨blanks, blank, rfl⟩, by simp, ?_⟩
      rw [List.length_append, List.length_append, Nat.add_assoc]
      rfl
    · rintro ⟨o, rest, ⟨blanks, blank, rfl⟩, rfl, rfl⟩
      rw [List.append_assoc, List.append_assoc, List.singleton_append, swiftOpener?_append blank,
        List.length_append, List.length_append, Nat.add_assoc]
      rfl
  quoted := by
    rintro o ⟨blanks, blank, rfl⟩
    refine ⟨swiftWord ++ blanks, List.append_ne_nil_of_left_ne_nil (by decide) blanks, ?_,
      (List.append_assoc ..).symm⟩
    intro mem
    rcases List.mem_append.mp mem with mem | mem
    · exact absurd mem (by decide)
    · exact absurd (blank '"' mem) (by decide)
  eq_of_suffix := by
    rintro o o' ⟨blanks, blank, rfl⟩ ⟨blanks', blank', rfl⟩ ⟨front, e⟩
    cases front with
    | nil => exact e
    | cons c front =>
      -- the first letter of the word does not come again
      have word : swiftWord = 'U' :: "IImage(named:".toList := by decide
      rw [word, List.cons_append, List.cons_append, List.cons_append, List.cons.injEq] at e
      have again : 'U' ∈ "IImage(named:".toList ++ (blanks ++ ['"']) := by
        rw [← e.2]
        exact List.mem_append_right front List.mem_cons_self
      rcases List.mem_append.mp again with mem | mem
      · exact absurd mem (by decide)
      rcases List.mem_append.mp mem with mem | mem
      · exact absurd (blank 'U' mem) (by decide)
      · exact absurd mem (by decide)

instance (f : Text) : Decidable (IsFiller SourceFormat.swift.IsOpener f) :=
  decidable_of_iff _ openers_swift.isFiller_iff.symm

/-! ### Mentions of code -/

theorem SourceFormat.exists_openers {f : SourceFormat} (code : f = .objectiveC ∨ f = .swift) :
    ∃ opener?, Openers f.IsOpener opener? ∧
      ∀ text : Text, f.mentions text = namesFrom (literalAt opener?) 0 text := by
  rcases code with rfl | rfl
  · exact ⟨_, openers_objectiveC, fun _ => rfl⟩
  · exact ⟨_, openers_swift, fun _ => rfl⟩

/-- **What code mentions is what is laid out in it.**  Of a text that is laid out as
literals with fillers in front of them, and with filler behind the last, the names
are mentioned, in their order; an opener that is never closed may stand at the
end.  And every text is laid out in this way with the names that it mentions,
none of which is empty or holds a quote. -/
theorem code_mentions_of_layout {f : SourceFormat} (code : f = .objectiveC ∨ f = .swift) :
    (∀ (ls : List (Literal f.IsOpener)) (last : Text), EndsLayout f.IsOpener last →
      f.mentions (layout ls last) = ls.map Literal.name) ∧
    ∀ text : Text, (∀ name ∈ f.mentions text, name ≠ [] ∧ '"' ∉ name) ∧
      ∃ (ls : List (Literal f.IsOpener)) (last : Text), text = layout ls last ∧
        EndsLayout f.IsOpener last ∧ f.mentions text = ls.map Literal.name := by
  obtain ⟨opener?, h, search⟩ := SourceFormat.exists_openers code
  constructor
  · intro ls last ends
    rw [search, h.namesFrom_layout ls ends]
  · intro text
    obtain ⟨ls, last, rfl, ends⟩ := h.exists_layout text
    have names : f.mentions (layout ls last) = ls.map Literal.name := by
      rw [search, h.namesFrom_layout ls ends]
    refine ⟨?_, ls, last, rfl, ends, names⟩
    intro name mem
    rw [names] at mem
    obtain ⟨l, _, rfl⟩ := List.mem_map.mp mem
    exact ⟨l.written, l.unquoted⟩

/-- A literal with blanks in its opener, behind one that is empty. -/
def spacedLiteral : Literal SourceFormat.swift.IsOpener where
  filler := "UIImage(named: \"\"), ".toList
  opener := "UIImage(named: \n \"".toList
  name := "logo".toList
  isFiller := by decide
  opens := ⟨" \n ".toList, List.all_eq_true.mp (by decide), by decide⟩
  written := by decide
  unquoted := by decide

theorem mentions_of_spacedLiteral :
    (SourceFormat.swift = .objectiveC ∨ SourceFormat.swift = .swift) ∧
      EndsLayout SourceFormat.swift.IsOpener "), UIImage(named: \"icon)".toList ∧
      SourceFormat.swift.mentions (layout [spacedLiteral] "), UIImage(named: \"icon)".toList) =
        ["logo".toList] := by
  have code : SourceFormat.swift = .objectiveC ∨ SourceFormat.swift = .swift := .inr rfl
  have ends : EndsLayout SourceFormat.swift.IsOpener "), UIImage(named: \"icon)".toList := by
    exact .inr ⟨"), ".toList, "UIImage(named: \"".toList, "icon)".toList, by decide,
      ⟨" ".toList, List.all_eq_true.mp (by decide), by decide⟩, by decide, by decide⟩
  obtain ⟨names, _⟩ := code_mentions_of_layout code
  exact ⟨code, ends, names [spacedLiteral] _ ends⟩

end AssetAudit

/-
AssetAudit/Text/CodeUnit.lean

The units that names, paths and sources are written in.

A project tree holds bytes; what is read from it is text.  Everything the
audit looks for — slashes, dots, quotes, the letters of an extension — is
ASCII, and an ASCII character has the same number as a byte and as a
character.  So a rule that only asks "is this unit the character `c`?" can
be stated once for both, over a `CodeUnit`:

* `CodeUnit.is u c` — the unit `u` is the character `c`;
* `CodeUnit.isFolded u c` — the same up to the case of ASCII letters;
* `startsWith same word us` — the units `us` begin with `word`, where `same`
  says when a unit counts as a character.
-/

namespace AssetAudit

/-- Text is a list of characters. -/
abbrev Text := List Char

/-- What a file holds, and what its name is made of. -/
abbrev Bytes := List UInt8

/-- A unit of written text, known by its number. -/
class CodeUnit (α : Type) where
  /-- The number of the unit. -/
  code : α → Nat
  /-- A unit is determined by its number. -/
  code_injective : ∀ {a b : α}, code a = code b → a = b

instance : CodeUnit Char where
  code := Char.toNat
  code_injective h := Char.ext (UInt32.toNat_inj.mp h)

instance : CodeUnit UInt8 where
  code := UInt8.toNat
  code_injective h := UInt8.toNat_inj.mp h

variable {α : Type} [CodeUnit α]

namespace CodeUnit

/-- The unit `u` is the character `c`. -/
def is (u : α) (c : Char) : Bool :=
  code u == c.toNat

/-- The number of a letter's lower-case form, for the letters of ASCII. -/
def foldCode (n : Nat) : Nat :=
  if 65 ≤ n ∧ n ≤ 90 then n + 32 else n

/-- The unit `u` is the character `c` up to the case of ASCII letters. -/
def isFolded (u : α) (c : Char) : Bool :=
  foldCode (code u) == foldCode c.toNat

theorem is_eq_true_iff {u : α} {c : Char} : is u c = true ↔ code u = c.toNat := by
  simp [is]

@[simp] theorem is_char (d c : Char) : is d c = (d == c) := by
  rw [Bool.eq_iff_iff, is_eq_true_iff, beq_iff_eq]
  exact ⟨fun h => code_injective h, fun h => h ▸ rfl⟩

/-- At most one unit is a given character. -/
theorem eq_of_is {u v : α} {c : Char} (hu : is u c = true) (hv : is v c = true) : u = v :=
  code_injective ((is_eq_true_iff.mp hu).trans (is_eq_true_iff.mp hv).symm)

end CodeUnit

/-- The units `us` begin with `word`, where `same` says when a unit counts as
a character. -/
def startsWith (same : α → Char → Bool) : (word : List Char) → (us : List α) → Bool
  | [], _ => true
  | _ :: _, [] => false
  | c :: word, u :: us => same u c && startsWith same word us

omit [CodeUnit α] in
@[simp] theorem startsWith_nil (same : α → Char → Bool) (us : List α) :
    startsWith same [] us = true := by
  cases us <;> rfl

/-- A text begins with a word exactly when the word is its front part. -/
theorem startsWith_is_eq_isPrefixOf (word cs : Text) :
    startsWith CodeUnit.is word cs = word.isPrefixOf cs := by
  induction word generalizing cs with
  | nil => simp
  | cons c word ih =>
    cases cs with
    | nil => rfl
    | cons d cs =>
      simp only [startsWith, List.isPrefixOf, CodeUnit.is_char, ih, BEq.comm (a := d)]

end AssetAudit

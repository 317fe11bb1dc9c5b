/-
AssetAudit/Source/Mention.lean

Finding the image names that a source mentions.

Each format has a pattern, a rule that says whether a mention stands at one
place of a text, which name it gives and how far it reaches.  The mentions of
a text are then found from the front: the pattern is tried at each place, and
behind a mention the search goes on where the mention ends.  Where none
stands, a pattern may tell that none begins further on either, as far as it
has looked.  Quoting and comments of the language around a mention are not
interpreted.

* In code a mention is an opener, a name in quotes and nothing else:
  `literalAt opener us`.  The name is not empty and ends at the next quote.
* In documents a mention is a run of text without the delimiter up to the
  last `.png` in it: `fileNameAt delimiter us`.  Something stands before
  that `.png`.

The patterns look at units only through their ASCII numbers and blanks, so
they can be read on characters and on bytes.
-/
import AssetAudit.Source.Format
import AssetAudit.Text.Blank

namespace AssetAudit

variable {α : Type} [CodeUnit α]

/-! ### Patterns -/

/-- What a pattern says at one place of a text. -/
inductive Attempt (α : Type) where
  /-- A mention stands there; it gives a name and takes up so many units. -/
  | mention (name : List α) (length : Nat)
  /-- No mention begins there or at the places that follow, so many in all. -/
  | nothing (places : Nat)
  deriving DecidableEq, Repr

/-- The units up to the next quote, if there are some and a quote follows. -/
def quotedAt (us : List α) : Option (List α) :=
  let name := us.takeWhile (!CodeUnit.is · '"')
  if !name.isEmpty && startsWith CodeUnit.is ['"'] (us.drop name.length) then some name else none

/-- The length of Objective-C's opener, with the opening quote, if it stands
at the front. -/
def objectiveCOpener? (us : List α) : Option Nat :=
  let word := "imageNamed:@\"".toList
  if startsWith CodeUnit.is word us then some word.length else none

/-- The length of Swift's opener, with any blanks in it and the opening
quote, if it stands at the front. -/
def swiftOpener? (us : List α) : Option Nat :=
  let word := "UIImage(named:".toList
  if startsWith CodeUnit.is word us then
    let blanks := ((us.drop word.length).takeWhile isBlank).length
    if startsWith CodeUnit.is ['"'] (us.drop (word.length + blanks)) then
      some (word.length + blanks + 1)
    else none
  else none

/-- The pattern of code: an opener, a name and the closing quote. -/
def literalAt (opener? : List α → Option Nat) (us : List α) : Attempt α :=
  match opener? us with
  | none => .nothing 1
  | some n =>
    match quotedAt (us.drop n) with
    | none => .nothing 1
    | some name => .mention name (n + name.length + 1)

/-- How many units of `us` the last `.png` before the first delimiter ends
behind. -/
def lastExtension? (delimiter : Char) : List α → Option Nat
  | [] => none
  | u :: us =>
    if CodeUnit.is u delimiter then none
    else match lastExtension? delimiter us with
      | some n => some (n + 1)
      | none => if startsWith CodeUnit.isFolded ".png".toList (u :: us) then some 4 else none

/-- The pattern of documents: all units up to the last `.png` before the next
delimiter, which is not the very first thing.  Where there is no such `.png`,
there is none for any later place before that delimiter. -/
def fileNameAt (delimiter : Char) : List α → Attempt α
  | [] => .nothing 1
  | u :: us =>
    if CodeUnit.is u delimiter then .nothing 1
    else match lastExtension? delimiter us with
      | some n => .mention (u :: us.take n) (n + 1)
      | none => .nothing ((us.takeWhile (!CodeUnit.is · delimiter)).length + 1)

/-- The pattern of a format. -/
def SourceFormat.attempt : SourceFormat → List α → Attempt α
  | .objectiveC => literalAt objectiveCOpener?
  | .swift => literalAt swiftOpener?
  | .interface => fileNameAt '"'
  | .propertyList => fileNameAt '>'

/-! ### The search -/

/-- The names mentioned in a text, from the front, once `skip` more units have
been passed over. -/
def namesFrom (attempt : List α → Attempt α) : (skip : Nat) → List α → List (List α)
  | _, [] => []
  | skip + 1, _ :: us => namesFrom attempt skip us
  | 0, u :: us =>
    match attempt (u :: us) with
    | .mention name length => name :: namesFrom attempt (length - 1) us
    | .nothing places => namesFrom attempt (places - 1) us

omit [CodeUnit α] in
/-- Passing over units is leaving them out. -/
theorem namesFrom_skip (attempt : List α → Attempt α) (skip : Nat) (us : List α) :
    namesFrom attempt skip us = namesFrom attempt 0 (us.drop skip) := by
  induction us generalizing skip with
  | nil => simp [namesFrom]
  | cons u us ih =>
    cases skip with
    | zero => rfl
    | succ skip => exact ih skip

/-- The names that a source in the format mentions, as they are written, in
the order of the text. -/
def SourceFormat.mentions (f : SourceFormat) (text : List α) : List (List α) :=
  namesFrom f.attempt 0 text

end AssetAudit

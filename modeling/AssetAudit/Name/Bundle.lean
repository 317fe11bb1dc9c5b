/-
AssetAudit/Name/Bundle.lean

The name an image is looked up by.

Code asks for an image by its bundle name.  On disk one image is several
files, whose names carry more: a resolution marker `@2x`, a device qualifier
such as `~ipad`, and the extension `.png`.  The bundle name of a file is its
file name without that `Ending`.

An ending is only taken off as a whole, so a name without the extension
keeps its markers.  Letter case does not matter in an ending; besides the
letters of ASCII a qualifier may hold the two characters whose case forms are
ASCII letters, the long s and the Kelvin sign.

* `Ending.ofText? t` — the ending that the whole of `t` is;
* `splitEnding base` — `base` cut before the longest ending it has;
* `bundleName raw` — the part of the file name of `raw` before its ending.
-/
import AssetAudit.Path.Component

namespace AssetAudit

/-! ### Endings -/

/-- What the end of an image's file name says besides its bundle name. -/
structure Ending where
  /-- The resolution marker `@2x` stands there. -/
  resolution : Bool
  /-- The letters of the device qualifier, if there is one. -/
  qualifier : Option Text
  deriving DecidableEq, Repr

namespace Ending

/-- A letter of a device qualifier: a letter of ASCII, or a character with
one as a case form. -/
def isQualifierLetter (c : Char) : Bool :=
  c.isAlpha || c == '\u017F' || c == '\u212A'

/-- The text is the extension `.png` in any letter case. -/
def isExtension : Text → Bool
  | [a, b, c, d] => [a, b, c, d].map Char.toLower == ".png".toList
  | _ => false

theorem isExtension_iff {t : Text} : isExtension t = true ↔ t.map Char.toLower = ".png".toList := by
  unfold isExtension
  split
  · simp
  · rename_i h
    refine ⟨by simp, fun e => ?_⟩
    have hl : t.length = 4 := by simpa using congrArg List.length e
    match t, hl with
    | [a, b, c, d], _ => exact absurd rfl (h a b c d)

/-- The text behind a leading `@2x`, if it has one in either letter case. -/
def afterMarker? : Text → Option Text
  | '@' :: '2' :: 'x' :: t => some t
  | '@' :: '2' :: 'X' :: t => some t
  | _ => none

/-- The letters of the qualifier that, with the extension behind it, makes up
the whole text; `some none` if the text is the extension alone. -/
def qualifierOf? : Text → Option (Option Text)
  | '~' :: t =>
    let letters := t.takeWhile isQualifierLetter
    if !letters.isEmpty && isExtension (t.dropWhile isQualifierLetter) then some (some letters)
    else none
  | t => if isExtension t then some none else none

/-- The ending that the whole text is, if it is one. -/
def ofText? (t : Text) : Option Ending :=
  match afterMarker? t with
  | some rest => (qualifierOf? rest).map (⟨true, ·⟩)
  | none => (qualifierOf? t).map (⟨false, ·⟩)

end Ending

/-! ### Bundle names -/

/-- A file name cut in front of its ending.  Of several endings that a name
has, one inside the other, the longest counts. -/
def splitEnding : Text → Text × Option Ending
  | [] => ([], none)
  | c :: cs =>
    match Ending.ofText? (c :: cs) with
    | some e => ([], some e)
    | none =>
      let r := splitEnding cs
      (c :: r.1, r.2)

/-- The bundle name of a file's path, or of an image's name in a source. -/
def bundleName (raw : Text) : Text :=
  (splitEnding (Path.basename raw)).1

/-- The ending that does not belong to the bundle name. -/
def endingOf? (raw : Text) : Option Ending :=
  (splitEnding (Path.basename raw)).2

end AssetAudit

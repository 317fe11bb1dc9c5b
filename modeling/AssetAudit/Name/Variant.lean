/-
AssetAudit/Name/Variant.lean

Which variant of an image a file is.

A file is the Retina variant if its path holds the marker `@2x` anywhere, and
a variant for one device only if its path ends in that device's qualifier,
with or without the extension.  The marker is read as it is written; the
qualifier in any letter case.
-/
import AssetAudit.Text.CodeUnit

namespace AssetAudit

/-- The devices that a file can be meant for alone. -/
inductive Device where
  | ipad
  | iphone
  deriving DecidableEq, Repr

/-- The qualifier of a device, in lower case. -/
def Device.qualifier : Device → Text
  | .ipad => "~ipad".toList
  | .iphone => "~iphone".toList

/-- The path holds the marker of the Retina resolution. -/
def isRetina : Text → Bool
  | [] => false
  | c :: cs => "@2x".toList.isPrefixOf (c :: cs) || isRetina cs

/-- The path ends in `word`, which is given in lower case, up to letter
case. -/
def endsFolded (word path : Text) : Bool :=
  word.isSuffixOf (path.map Char.toLower)

/-- The path is that of a file meant for the device `d` alone. -/
def isFor (d : Device) (path : Text) : Bool :=
  endsFolded d.qualifier path || endsFolded (d.qualifier ++ ".png".toList) path

theorem isRetina_iff {path : Text} : isRetina path = true ↔ "@2x".toList <:+: path := by
  induction path with
  | nil => simp [isRetina]
  | cons c cs ih =>
    rw [isRetina, Bool.or_eq_true, ih, List.isPrefixOf_iff_prefix, List.infix_cons_iff]

end AssetAudit

/-
AssetAudit/Text/Blank.lean

The characters that are blank: those with the property White_Space of the
Unicode Character Database.
-/
import AssetAudit.Text.CodeUnit

namespace AssetAudit

/-- The ranges of numbers of blank characters, in ascending order. -/
def blankRanges : List (Nat × Nat) :=
  [(0x09, 0x0D), (0x20, 0x20), (0x85, 0x85), (0xA0, 0xA0), (0x1680, 0x1680), (0x2000, 0x200A),
    (0x2028, 0x2029), (0x202F, 0x202F), (0x205F, 0x205F), (0x3000, 0x3000)]

/-- The unit is a blank character. -/
def isBlank {α : Type} [CodeUnit α] (u : α) : Bool :=
  blankRanges.any fun r => decide (r.1 ≤ CodeUnit.code u ∧ CodeUnit.code u ≤ r.2)

end AssetAudit

/-
AssetAudit/Text/Decimal.lean

Counts in decimal digits.
-/
import AssetAudit.Text.CodeUnit

namespace AssetAudit

/-- A count in decimal digits, without leading zeros. -/
def decimal (n : Nat) : Text :=
  Nat.toDigits 10 n

end AssetAudit

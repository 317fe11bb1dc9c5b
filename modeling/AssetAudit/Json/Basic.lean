/-
AssetAudit/Json/Basic.lean

Written JSON, as far as a report needs it: texts, counts, lists and objects
whose members stand in a fixed order.

* `compact j` — on one line, without blanks;
* `pretty j` — one element on a line, indented by two blanks for each level,
  with `[]` and `{}` for what is empty.

In a text the quote, the backslash and the control characters below U+0020
are escaped, five of these by a letter; every other character stands for
itself.
-/
import AssetAudit.Text.Decimal

namespace AssetAudit

/-- A value to be written as JSON. -/
inductive Json where
  | text (t : Text)
  | count (n : Nat)
  | list (items : List Json)
  | object (members : List (Text × Json))

namespace Json

/-! ### Texts -/

/-- A digit of base sixteen, in lower case. -/
def hexDigit (n : Nat) : Char :=
  Nat.digitChar (n % 16)

/-- A character as it stands in a written text. -/
def escapeChar (c : Char) : Text :=
  if c = '"' then ['\\', '"']
  else if c = '\\' then ['\\', '\\']
  else if c.toNat = 0x08 then ['\\', 'b']
  else if c.toNat = 0x09 then ['\\', 't']
  else if c.toNat = 0x0A then ['\\', 'n']
  else if c.toNat = 0x0C then ['\\', 'f']
  else if c.toNat = 0x0D then ['\\', 'r']
  else if c.toNat < 0x20 then
    ['\\', 'u', '0', '0', hexDigit (c.toNat / 16), hexDigit c.toNat]
  else [c]

/-- A text in quotes. -/
def quoted (t : Text) : Text :=
  '"' :: t.flatMap escapeChar ++ ['"']

/-! ### On one line -/

mutual

/-- The value on one line. -/
def compact : Json → Text
  | .text t => quoted t
  | .count n => decimal n
  | .list items => '[' :: compactItems items ++ [']']
  | .object members => '\x7b' :: compactMembers members ++ ['\x7d']

/-- Items with commas between them. -/
def compactItems : List Json → Text
  | [] => []
  | [j] => j.compact
  | j :: k :: rest => j.compact ++ ',' :: compactItems (k :: rest)

/-- Members with commas between them. -/
def compactMembers : List (Text × Json) → Text
  | [] => []
  | [(name, j)] => quoted name ++ ':' :: j.compact
  | (name, j) :: m :: rest => quoted name ++ ':' :: j.compact ++ ',' :: compactMembers (m :: rest)

end

/-! ### Indented -/

/-- A new line, indented for a level. -/
def newLine (level : Nat) : Text :=
  '\n' :: List.replicate (2 * level) ' '

mutual

/-- The value with its elements on lines of their own, where the value itself
stands at a level. -/
def prettyAt (level : Nat) : Json → Text
  | .text t => quoted t
  | .count n => decimal n
  | .list [] => ['[', ']']
  | .list (j :: rest) =>
    '[' :: prettyItems (level + 1) (j :: rest) ++ newLine level ++ [']']
  | .object [] => ['\x7b', '\x7d']
  | .object (m :: rest) =>
    '\x7b' :: prettyMembers (level + 1) (m :: rest) ++ newLine level ++ ['\x7d']

/-- Items on lines of their own at a level, with commas between them. -/
def prettyItems (level : Nat) : List Json → Text
  | [] => []
  | [j] => newLine level ++ prettyAt level j
  | j :: k :: rest => newLine level ++ prettyAt level j ++ ',' :: prettyItems level (k :: rest)

/-- Members on lines of their own at a level, with commas between them. -/
def prettyMembers (level : Nat) : List (Text × Json) → Text
  | [] => []
  | [(name, j)] => newLine level ++ quoted name ++ [':', ' '] ++ prettyAt level j
  | (name, j) :: m :: rest =>
    newLine level ++ quoted name ++ [':', ' '] ++ prettyAt level j ++
      ',' :: prettyMembers level (m :: rest)

end

/-- The value with its elements on lines of their own. -/
def pretty (j : Json) : Text :=
  j.prettyAt 0

end Json

end AssetAudit

/-
AssetAudit/Path/Relative.lean

Joining paths and taking them apart again.

Joining works on text: a slash is put between unless one is there already.
Taking a leading path off works on components, so that `./a` is under `.`
and `a//b` is under `a/`.  What remains is the text behind the components
taken off, less the segments at its two ends that say nothing; doubled
slashes further in stay as they are written.
-/
import AssetAudit.Path.Component

namespace AssetAudit.Path

variable {α : Type} [CodeUnit α]

/-! ### Joining -/

/-- The path ends in a slash. -/
def endsInSlash (p : List α) : Bool :=
  (p.getLast?.map (CodeUnit.is · '/')).getD false

/-- The path of the entry `name` in the directory `base`; `slash` is the unit
that separates them. -/
def joinWith (slash : α) (base name : List α) : List α :=
  if base.isEmpty || endsInSlash base then base ++ name else base ++ slash :: name

/-- The path of the entry `name` in the directory `base`. -/
def join (base name : Bytes) : Bytes :=
  joinWith 0x2F base name

/-! ### Taking off a leading path -/

/-- What follows the components `cs` at the front of `rs`, if they stand
there.  Segments that denote nothing are passed over. -/
def dropComponents [DecidableEq α] :
    (rs : List (Reading α)) → (cs : List (Component α)) → Option (List (Reading α))
  | rs, [] => some rs
  | [], _ :: _ => none
  | (_, none) :: rs, c :: cs => dropComponents rs (c :: cs)
  | (_, some d) :: rs, c :: cs => if d = c then dropComponents rs cs else none

/-- The segments between the first and the last that denote something. -/
def trim (rs : List (Reading α)) : List (Reading α) :=
  ((rs.dropWhile (·.2.isNone)).reverse.dropWhile (·.2.isNone)).reverse

/-- The text of a run of segments; the root is the slash itself. -/
def textOf (slash : α) : List (Reading α) → List α
  | (_, some .root) :: rs => slash :: [slash].intercalate (rs.map (·.1))
  | rs => [slash].intercalate (rs.map (·.1))

/-- The rest of `p` behind the path `base`, if `p` is under it. -/
def stripWith? [DecidableEq α] (slash : α) (base p : List α) : Option (List α) :=
  (dropComponents (readings p) (components base)).map fun rs => textOf slash (trim rs)

/-- `p` as seen from `root`, or `p` itself if it is not under `root`. -/
def seenFrom (root p : Bytes) : Bytes :=
  (stripWith? 0x2F root p).getD p

end AssetAudit.Path

/-
AssetAudit/Path/Component.lean

How a path text falls into components.

A path is written as segments between slashes.  A segment names an entry, or
is `..`, or says nothing: empty segments (a doubled or trailing slash) and
`.` are passed over.  Only at the front do they count: an empty segment
before a slash is the root, and `.` is the place where the path starts.

* `segments p` — what stands between the slashes;
* `readings p` — each segment with the component it denotes, if any;
* `components p` — the components alone;
* `fileName? p` — the last component, if it is a name;
* `basename p` — that name, or the whole of `p` where there is none.

Nothing is looked up: two paths to one place may differ in components.
-/
import AssetAudit.Text.CodeUnit

namespace AssetAudit.Path

variable {α : Type} [CodeUnit α]

/-! ### Segments -/

/-- What stands between the slashes of `p`; a text without a slash is one
segment. -/
def segments (p : List α) : List (List α) :=
  p.splitOnP (CodeUnit.is · '/')

theorem segments_ne_nil (p : List α) : segments p ≠ [] :=
  List.splitOnP_ne_nil _ _

theorem segments_nil : segments ([] : List α) = [[]] := rfl

/-- A text without a slash is its only segment. -/
theorem segments_of_no_slash {p : List α} (h : ∀ u ∈ p, CodeUnit.is u '/' = false) :
    segments p = [p] :=
  List.splitOnP_eq_singleton h

/-- A segment is `.`. -/
def isDot : List α → Bool
  | [u] => CodeUnit.is u '.'
  | _ => false

/-- A segment is `..`. -/
def isDotDot : List α → Bool
  | [u, v] => CodeUnit.is u '.' && CodeUnit.is v '.'
  | _ => false

/-- A segment that a name could be: neither empty nor `.` nor `..`. -/
def isProper (s : List α) : Bool :=
  !s.isEmpty && !isDot s && !isDotDot s

/-! ### Components -/

/-- A step of a path. -/
inductive Component (α : Type) where
  /-- The top of the file system. -/
  | root
  /-- A leading `.`. -/
  | here
  /-- `..`, one directory up. -/
  | parent
  /-- An entry of that name. -/
  | name (s : List α)
  deriving DecidableEq

/-- What a segment behind the first denotes. -/
def innerReading (s : List α) : Option (Component α) :=
  if s.isEmpty || isDot s then none
  else if isDotDot s then some .parent
  else some (.name s)

/-- What the first segment denotes; `more` says that a slash follows it. -/
def firstReading (s : List α) (more : Bool) : Option (Component α) :=
  if s.isEmpty then if more then some .root else none
  else if isDot s then some .here
  else innerReading s

/-- A segment and the component it denotes, if any. -/
abbrev Reading (α : Type) := List α × Option (Component α)

/-- Each segment of `p` with the component it denotes. -/
def readings (p : List α) : List (Reading α) :=
  match segments p with
  | [] => []
  | s :: rest => (s, firstReading s !rest.isEmpty) :: rest.map fun t => (t, innerReading t)

/-- The components of `p`. -/
def components (p : List α) : List (Component α) :=
  (readings p).filterMap (·.2)

/-! ### File names -/

/-- The name that a component gives, if it gives one. -/
def Component.name? : Component α → Option (List α)
  | .name s => some s
  | _ => none

/-- The last component of `p`, if it is a name. -/
def fileName? (p : List α) : Option (List α) :=
  (components p).getLast?.bind Component.name?

/-- The file name of `p`, or the whole of `p` if it does not end in a name. -/
def basename (p : List α) : List α :=
  (fileName? p).getD p

end AssetAudit.Path

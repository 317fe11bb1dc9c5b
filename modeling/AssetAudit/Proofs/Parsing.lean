/-
AssetAudit/Proofs/Parsing.lean

Written JSON read back.

A parser goes through tokens.  It keeps what is due next (`Mode`) and, from the
innermost outwards, the lists and objects that are open, each with what was read
of it (`Frame`).  Where a value is due, the tokens of a value leave it done, and
all that is open as it was (`parse_tokens`): the tokens of a value are read as
the value and as nothing else.

Either way of writing a value spells its tokens, so one reader takes both back:

* `read?_compact` — for what is written on one line;
* `read?_pretty` — for what is written with elements on lines of their own.
-/
import AssetAudit.Proofs.Lexing

namespace AssetAudit.Json

/-! ### Values -/

/-- An induction over values, through the items of lists and the members of
objects. -/
@[elab_as_elim]
theorem induction {motive : Json → Prop} (text : ∀ t, motive (.text t))
    (count : ∀ n, motive (.count n))
    (list : ∀ items, (∀ j ∈ items, motive j) → motive (.list items))
    (object : ∀ members : List (Text × Json), (∀ m ∈ members, motive m.2) →
      motive (.object members))
    (j : Json) : motive j := by
  refine @Json.rec motive (fun items => ∀ j ∈ items, motive j)
    (fun members => ∀ m ∈ members, motive m.2) (fun m => motive m.2) text count list object
    ?_ ?_ ?_ ?_ ?_ j
  · exact fun j hj => absurd hj List.not_mem_nil
  · exact fun _ _ first others => List.forall_mem_cons.mpr ⟨first, others⟩
  · exact fun m hm => absurd hm List.not_mem_nil
  · exact fun _ _ first others => List.forall_mem_cons.mpr ⟨first, others⟩
  · exact fun _ _ value => value

mutual

/-- The tokens of a value, however it is laid out. -/
def tokens : Json → List Token
  | .text t => [.text t]
  | .count n => [.count n]
  | .list items => .openList :: itemTokens items ++ [.closeList]
  | .object members => .openObject :: memberTokens members ++ [.closeObject]

/-- The tokens of items, with commas between them. -/
def itemTokens : List Json → List Token
  | [] => []
  | [j] => j.tokens
  | j :: k :: rest => j.tokens ++ .comma :: itemTokens (k :: rest)

/-- The tokens of members, with commas between them. -/
def memberTokens : List (Text × Json) → List Token
  | [] => []
  | [(name, j)] => .text name :: .colon :: j.tokens
  | (name, j) :: m :: rest =>
    .text name :: .colon :: j.tokens ++ .comma :: memberTokens (m :: rest)

end

/-- What is written with a separator between the pieces. -/
theorem eq_intercalate {α β : Type} {sep : β} {piece : α → List β} {all : List α → List β}
    (nil : all [] = []) (one : ∀ x, all [x] = piece x)
    (more : ∀ x y rest, all (x :: y :: rest) = piece x ++ sep :: all (y :: rest)) (xs : List α) :
    all xs = [sep].intercalate (xs.map piece) := by
  induction xs with
  | nil => exact nil
  | cons x xs ih =>
    cases xs with
    | nil => rw [one, List.map_singleton, List.intercalate_singleton]
    | cons y xs =>
      rw [more, ih, List.map_cons, List.map_cons, List.map_cons, List.intercalate_cons_cons,
        List.append_assoc, List.singleton_append]

theorem itemTokens_eq (items : List Json) :
    itemTokens items = [.comma].intercalate (items.map tokens) :=
  eq_intercalate rfl (fun _ => rfl) (fun _ _ _ => rfl) items

/-- The tokens of a member. -/
def memberToken (m : Text × Json) : List Token :=
  .text m.1 :: .colon :: m.2.tokens

theorem memberTokens_eq (members : List (Text × Json)) :
    memberTokens members = [.comma].intercalate (members.map memberToken) :=
  eq_intercalate rfl (fun _ => rfl) (fun _ _ _ => rfl) members

theorem compactItems_eq (items : List Json) :
    compactItems items = [','].intercalate (items.map compact) :=
  eq_intercalate rfl (fun _ => rfl) (fun _ _ _ => rfl) items

theorem compactMembers_eq (members : List (Text × Json)) :
    compactMembers members =
      [','].intercalate (members.map fun m => quoted m.1 ++ ':' :: m.2.compact) :=
  eq_intercalate rfl (fun _ => rfl) (fun _ _ _ => rfl) members

theorem prettyItems_eq (level : Nat) (items : List Json) :
    prettyItems level items =
      [','].intercalate (items.map fun j => newLine level ++ prettyAt level j) :=
  eq_intercalate rfl (fun _ => rfl) (fun _ _ _ => rfl) items

theorem prettyMembers_eq (level : Nat) (members : List (Text × Json)) :
    prettyMembers level members = [','].intercalate (members.map fun m =>
      newLine level ++ quoted m.1 ++ [':', ' '] ++ prettyAt level m.2) :=
  eq_intercalate rfl (fun _ => rfl) (fun _ _ _ => rfl) members

/-! ### Written values -/

/-- **On one line a value spells its tokens.** -/
theorem spells_compact (j : Json) : Spells j.compact j.tokens := by
  induction j using Json.induction with
  | text t => exact spells_quoted t
  | count n => exact spells_decimal n
  | list items ih =>
    have inner : Spells (compactItems items) (itemTokens items) := by
      rw [compactItems_eq, itemTokens_eq]
      exact Spells.intercalate ih
    exact inner.bracket rfl rfl (by decide)
  | object members ih =>
    have inner : Spells (compactMembers members) (memberTokens members) := by
      rw [compactMembers_eq, memberTokens_eq]
      apply Spells.intercalate
      intro m hm
      exact (spells_quoted m.1).append_sign rfl (by decide) (ih m hm)
    exact inner.bracket rfl rfl (by decide)

/-- **With its elements on lines of their own a value spells the same tokens.** -/
theorem spells_prettyAt (level : Nat) (j : Json) : Spells (j.prettyAt level) j.tokens := by
  induction j using Json.induction generalizing level with
  | text t => exact spells_quoted t
  | count n => exact spells_decimal n
  | list items ih =>
    cases items with
    | nil => exact spells_nil.bracket rfl rfl (by decide)
    | cons j rest =>
      have inner : Spells (prettyItems (level + 1) (j :: rest)) (itemTokens (j :: rest)) := by
        rw [prettyItems_eq, itemTokens_eq]
        apply Spells.intercalate
        exact fun k hk => (ih k hk (level + 1)).newLine_append (level + 1)
      exact (inner.append_newLine level).bracket rfl rfl (by decide)
  | object members ih =>
    cases members with
    | nil => exact spells_nil.bracket rfl rfl (by decide)
    | cons m rest =>
      have inner : Spells (prettyMembers (level + 1) (m :: rest)) (memberTokens (m :: rest)) := by
        rw [prettyMembers_eq, memberTokens_eq]
        apply Spells.intercalate
        intro n hn
        have name := (spells_quoted n.1).newLine_append (level + 1)
        have value := (ih n hn (level + 1)).cons_blank (c := ' ') rfl
        have member := name.append_sign (c := ':') rfl (by decide) value
        rw [List.append_assoc]
        exact member
      exact (inner.append_newLine level).bracket rfl rfl (by decide)

/-! ### The parser -/

/-- A list or an object that is open, with what was read of it. -/
inductive Frame where
  /-- A list, of which an item is being read. -/
  | item (front : List Json)
  /-- An object, of which the member `name` is being read. -/
  | member (front : List (Text × Json)) (name : Text)

/-- What is due. -/
inductive Mode where
  | value
  /-- The first item of a list, or its end. -/
  | firstItem
  /-- The first name of an object, or its end. -/
  | firstName
  /-- The name of another member. -/
  | name (front : List (Text × Json))
  /-- The colon behind a name. -/
  | colon (front : List (Text × Json)) (name : Text)
  /-- What comes behind a value that was read. -/
  | done (j : Json)

/-- What is due, and what is open, from the innermost outwards. -/
abbrev ParseState := Mode × List Frame

/-- A token where a value is due. -/
def beginValue (above : List Frame) : Token → Option ParseState
  | .text t => some (.done (.text t), above)
  | .count n => some (.done (.count n), above)
  | .openList => some (.firstItem, above)
  | .openObject => some (.firstName, above)
  | _ => none

/-- A token behind a value that was read. -/
def endValue (j : Json) : List Frame → Token → Option ParseState
  | .item front :: above, .comma => some (.value, .item (front ++ [j]) :: above)
  | .item front :: above, .closeList => some (.done (.list (front ++ [j])), above)
  | .member front name :: above, .comma => some (.name (front ++ [(name, j)]), above)
  | .member front name :: above, .closeObject =>
    some (.done (.object (front ++ [(name, j)])), above)
  | _, _ => none

/-- One token. -/
def parseStep : ParseState → Token → Option ParseState
  | (.value, above), tok => beginValue above tok
  | (.firstItem, above), .closeList => some (.done (.list []), above)
  | (.firstItem, above), tok => beginValue (.item [] :: above) tok
  | (.firstName, above), .closeObject => some (.done (.object []), above)
  | (.firstName, above), .text name => some (.colon [] name, above)
  | (.name front, above), .text name => some (.colon front name, above)
  | (.colon front name, above), .colon => some (.value, .member front name :: above)
  | (.done j, above), tok => endValue j above tok
  | _, _ => none

/-- All tokens, one after the other. -/
def parse (s : ParseState) (ts : List Token) : Option ParseState :=
  ts.foldlM parseStep s

/-- The value that a text is written from, if it is written JSON. -/
def read? (t : Text) : Option Json :=
  match (lex .between t).bind (parse (.value, [])) with
  | some (.done j, []) => some j
  | _ => none

theorem parse_append (s : ParseState) (ts us : List Token) :
    parse s (ts ++ us) = (parse s ts).bind fun s' => parse s' us :=
  List.foldlM_append

theorem parse_cons {s s' : ParseState} {tok : Token} (h : parseStep s tok = some s')
    (ts : List Token) : parse s (tok :: ts) = parse s' ts := by
  rw [parse, List.foldlM_cons, h]
  rfl

/-! ### Tokens of values -/

/-- The tokens of a value leave it done. -/
def Parses (j : Json) : Prop :=
  ∀ above, parse (.value, above) j.tokens = some (.done j, above)

theorem parse_value {j : Json} (h : Parses j) (above : List Frame) (ts : List Token) :
    parse (.value, above) (j.tokens ++ ts) = parse (.done j, above) ts := by
  rw [parse_append, h above, Option.bind_some]

/-- An item begins as a value does. -/
theorem parse_firstItem (j : Json) (above : List Frame) (ts : List Token) :
    parse (.firstItem, above) (j.tokens ++ ts) =
      parse (.value, .item [] :: above) (j.tokens ++ ts) := by
  cases j <;> rfl

/-- The items of a list up to its end. -/
theorem parse_items {items : List Json} (h : ∀ j ∈ items, Parses j) (some : items ≠ [])
    (front : List Json) (above : List Frame) :
    parse (.value, .item front :: above) (itemTokens items ++ [.closeList]) =
      .some (.done (.list (front ++ items)), above) := by
  induction items generalizing front with
  | nil => exact absurd rfl some
  | cons j items ih =>
    obtain ⟨first, others⟩ := List.forall_mem_cons.mp h
    cases items with
    | nil =>
      rw [itemTokens, parse_value first, parse_cons rfl]
      rfl
    | cons k items =>
      rw [itemTokens, List.append_assoc, List.cons_append, parse_value first, parse_cons rfl,
        ih others (List.cons_ne_nil k items), List.append_assoc, List.singleton_append]

/-- The members of an object up to its end. -/
theorem parse_members {members : List (Text × Json)} (h : ∀ m ∈ members, Parses m.2)
    (some : members ≠ []) (front : List (Text × Json)) (above : List Frame) :
    parse (.name front, above) (memberTokens members ++ [.closeObject]) =
      .some (.done (.object (front ++ members)), above) := by
  induction members generalizing front with
  | nil => exact absurd rfl some
  | cons m members ih =>
    obtain ⟨name, j⟩ := m
    obtain ⟨first, others⟩ := List.forall_mem_cons.mp h
    cases members with
    | nil =>
      rw [memberTokens, List.cons_append, List.cons_append, parse_cons rfl, parse_cons rfl,
        parse_value first, parse_cons rfl]
      rfl
    | cons n members =>
      rw [memberTokens, List.append_assoc, List.cons_append, List.cons_append, parse_cons rfl,
        parse_cons rfl, List.cons_append, parse_value first, parse_cons rfl,
        ih others (List.cons_ne_nil n members), List.append_assoc, List.singleton_append]

/-- A name begins an object as it begins another member. -/
theorem parse_firstName (m : Text × Json) (members : List (Text × Json)) (above : List Frame)
    (ts : List Token) :
    parse (.firstName, above) (memberTokens (m :: members) ++ ts) =
      parse (.name [], above) (memberTokens (m :: members) ++ ts) := by
  cases members <;> rfl

/-- **The tokens of a value are read as the value.** -/
theorem parse_tokens (j : Json) : Parses j := by
  intro above
  induction j using Json.induction generalizing above with
  | text t => rfl
  | count n => rfl
  | list items ih =>
    rw [tokens, List.cons_append, parse_cons rfl]
    cases items with
    | nil => rfl
    | cons j items =>
      have begun : parse (.firstItem, above) (itemTokens (j :: items) ++ [.closeList]) =
          parse (.value, .item [] :: above) (itemTokens (j :: items) ++ [.closeList]) := by
        cases items with
        | nil => exact parse_firstItem j above _
        | cons k items =>
          rw [itemTokens, List.append_assoc]
          exact parse_firstItem j above _
      rw [begun, parse_items (fun k hk above => ih k hk above) (List.cons_ne_nil j items)]
      rfl
  | object members ih =>
    rw [tokens, List.cons_append, parse_cons rfl]
    cases members with
    | nil => rfl
    | cons m members =>
      rw [parse_firstName, parse_members (fun n hn above => ih n hn above)
        (List.cons_ne_nil m members)]
      rfl

/-! ### Written values are read back -/

/-- A text that spells the tokens of a value is read as the value. -/
theorem read?_of_spells {t : Text} {j : Json} (h : Spells t j.tokens) : read? t = some j := by
  have lexed := h [] nofun
  have ended : lex .between [] = some [] := rfl
  rw [List.append_nil, ended, Option.map_some, List.append_nil] at lexed
  rw [read?, lexed, Option.bind_some, parse_tokens]

/-- **What is written on one line is read back.** -/
theorem read?_compact (j : Json) : read? j.compact = some j :=
  read?_of_spells (spells_compact j)

/-- **What is written with elements on lines of their own is read back.** -/
theorem read?_pretty (j : Json) : read? j.pretty = some j :=
  read?_of_spells (spells_prettyAt 0 j)

/-- A line end behind it does not matter. -/
theorem read?_pretty_line (j : Json) : read? (j.pretty ++ ['\n']) = some j :=
  read?_of_spells ((spells_prettyAt 0 j).append_newLine 0)

end AssetAudit.Json

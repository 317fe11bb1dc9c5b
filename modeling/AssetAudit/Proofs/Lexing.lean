/-
AssetAudit/Proofs/Lexing.lean

The tokens of JSON texts.

A lexer goes through a text character by character.  It keeps what it is in the
middle of (`Lexer`): a number or a quoted text with the part read so far, or an
escape in such a text.  A number ends where something else begins, so what comes
behind it may not begin with a digit; a quoted text ends at the next quote, and
as quotes and backslashes are escaped in it no character of the text can be
taken for that one (`lex_escapeChar`).

A text spells tokens if the lexer finds them in front of whatever follows
(`Spells`).  Texts that spell tokens are put together from such texts, with signs
and blanks between them.
-/
import AssetAudit.Json.Basic

namespace AssetAudit.Json

/-! ### The lexer -/

/-- What JSON is made of. -/
inductive Token where
  | text (t : Text)
  | count (n : Nat)
  | openList
  | closeList
  | openObject
  | closeObject
  | comma
  | colon
  deriving DecidableEq, Repr

/-- What a lexer is in the middle of. -/
inductive Lexer where
  /-- Nothing; a token may begin. -/
  | between
  /-- A number, of which `n` was read. -/
  | number (n : Nat)
  /-- A quoted text, of which `front` was read. -/
  | inText (front : Text)
  /-- An escape in a quoted text, behind the backslash. -/
  | escaped (front : Text)
  /-- An escape by number, of which `n` was read and `further` digits are to come
  behind the next. -/
  | coded (front : Text) (further n : Nat)

/-- A blank of JSON. -/
def isSpace (c : Char) : Bool :=
  c == ' ' || c == '\t' || c == '\n' || c == '\r'

/-- The token that a character is by itself. -/
def sign? : Char → Option Token
  | '[' => some .openList
  | ']' => some .closeList
  | '\x7b' => some .openObject
  | '\x7d' => some .closeObject
  | ',' => some .comma
  | ':' => some .colon
  | _ => none

/-- The value of a digit of base sixteen, in either letter case. -/
def hexValue? (c : Char) : Option Nat :=
  (List.range 16).find? (Nat.digitChar · == c.toLower)

/-- The character that is escaped by a letter. -/
def escapedBy? : Char → Option Char
  | '"' => some '"'
  | '\\' => some '\\'
  | '/' => some '/'
  | 'b' => some '\x08'
  | 't' => some '\t'
  | 'n' => some '\n'
  | 'f' => some '\x0C'
  | 'r' => some '\r'
  | _ => none

namespace Lexer

/-- What a character does between tokens. -/
def begin (c : Char) : Option (List Token × Lexer) :=
  if isSpace c then some ([], .between)
  else if c = '"' then some ([], .inText [])
  else if c.isDigit then some ([], .number (c.toNat - '0'.toNat))
  else (sign? c).map fun tok => ([tok], .between)

/-- One character: the tokens that are complete with it, and what the lexer is in
the middle of then. -/
def step : Lexer → Char → Option (List Token × Lexer)
  | .between, c => begin c
  | .number n, c =>
    if c.isDigit then some ([], .number (10 * n + (c.toNat - '0'.toNat)))
    else (begin c).map fun r => (.count n :: r.1, r.2)
  | .inText front, c =>
    if c = '"' then some ([.text front], .between)
    else if c = '\\' then some ([], .escaped front)
    else if c.toNat < 0x20 then none
    else some ([], .inText (front ++ [c]))
  | .escaped front, c =>
    if c = 'u' then some ([], .coded front 3 0)
    else (escapedBy? c).map fun d => ([], .inText (front ++ [d]))
  | .coded front (k + 1) n, c => (hexValue? c).map fun d => ([], .coded front k (16 * n + d))
  | .coded front 0 n, c => do
    let d ← hexValue? c
    if (16 * n + d).isValidChar then some ([], .inText (front ++ [Char.ofNat (16 * n + d)]))
    else none

/-- The token that is complete at the end of a text. -/
def finish : Lexer → Option (List Token)
  | .between => some []
  | .number n => some [.count n]
  | _ => none

end Lexer

/-- The tokens of a text, where the lexer is in the middle of something. -/
def lex : Lexer → Text → Option (List Token)
  | s, [] => s.finish
  | s, c :: rest => (s.step c).bind fun r => (lex r.2 rest).map (r.1 ++ ·)

/-! ### Single steps -/

section Steps

variable {s s' : Lexer} {c : Char} {tok : Token}

/-- A character that completes no token is only taken in. -/
theorem lex_cons_of_silent (h : s.step c = some ([], s')) (rest : Text) :
    lex s (c :: rest) = lex s' rest := by
  rw [lex, h, Option.bind_some]
  exact Option.map_id_apply

theorem lex_cons_of_token (h : s.step c = some ([tok], s')) (rest : Text) :
    lex s (c :: rest) = (lex s' rest).map (tok :: ·) := by
  rw [lex, h, Option.bind_some]
  rfl

end Steps

/-! ### Numbers -/

/-- No digit stands at the front. -/
def NoDigit (rest : Text) : Prop :=
  ∀ c ∈ rest.head?, c.isDigit = false

theorem noDigit_cons {c : Char} (h : c.isDigit = false) (rest : Text) : NoDigit (c :: rest) := by
  intro d hd
  cases hd
  exact h

/-- Digits are read from the front, each counting ten times what was before. -/
theorem lex_digits {digits : Text} (h : ∀ c ∈ digits, c.isDigit = true) (n : Nat) (rest : Text) :
    lex (.number n) (digits ++ rest) = lex (.number (Nat.ofDigitChars 10 digits n)) rest := by
  induction digits generalizing n with
  | nil => rfl
  | cons c digits ih =>
    obtain ⟨first, others⟩ := List.forall_mem_cons.mp h
    have step : (Lexer.number n).step c =
        some ([], .number (10 * n + (c.toNat - '0'.toNat))) := if_pos first
    rw [List.cons_append, lex_cons_of_silent step, ih others]
    rfl

/-- A number begins with its first digit. -/
theorem lex_between_of_digit {c : Char} (h : c.isDigit = true) (rest : Text) :
    lex .between (c :: rest) = lex (.number 0) (c :: rest) := by
  have other {d : Char} (hd : d.isDigit = false) : c ≠ d := by
    rintro rfl
    rw [h] at hd
    cases hd
  have space : isSpace c = false := by
    simp only [isSpace, Bool.or_eq_false_iff, beq_eq_false_iff_ne]
    exact ⟨⟨⟨other (by decide), other (by decide)⟩, other (by decide)⟩, other (by decide)⟩
  have between : Lexer.between.step c = some ([], .number (c.toNat - '0'.toNat)) := by
    rw [Lexer.step, Lexer.begin, space, if_neg Bool.false_ne_true, if_neg (other (by decide)),
      if_pos h]
  have number : (Lexer.number 0).step c =
      some ([], .number (10 * 0 + (c.toNat - '0'.toNat))) := if_pos h
  rw [lex_cons_of_silent between, lex_cons_of_silent number, Nat.mul_zero, Nat.zero_add]

/-- What begins behind a number ends it. -/
theorem lex_number {rest : Text} (h : NoDigit rest) (n : Nat) :
    lex (.number n) rest = (lex .between rest).map (.count n :: ·) := by
  cases rest with
  | nil => rfl
  | cons c rest =>
    have step : (Lexer.number n).step c =
        (Lexer.begin c).map fun r => (.count n :: r.1, r.2) := by
      rw [Lexer.step, h c rfl, if_neg Bool.false_ne_true]
    rw [lex, lex, step, Lexer.step]
    cases Lexer.begin c with
    | none => rfl
    | some r =>
      rw [Option.map_some, Option.bind_some, Option.bind_some, Option.map_map]
      rfl

theorem lex_decimal {rest : Text} (h : NoDigit rest) (n : Nat) :
    lex .between (decimal n ++ rest) = (lex .between rest).map (.count n :: ·) := by
  have digits : ∀ c ∈ decimal n, c.isDigit = true :=
    fun c hc => Nat.isDigit_of_mem_toDigits (by decide) (by decide) hc
  obtain ⟨c, others, e⟩ := List.exists_cons_of_ne_nil (show decimal n ≠ [] by
    rw [decimal, Nat.toDigits_eq_if (by decide)]
    split
    · exact List.cons_ne_nil _ _
    · exact List.append_ne_nil_of_right_ne_nil _ (List.cons_ne_nil _ _))
  have first : c.isDigit = true := digits c (e ▸ List.mem_cons_self ..)
  rw [e, List.cons_append, lex_between_of_digit first, ← List.cons_append, ← e,
    lex_digits digits, decimal, Nat.ofDigitChars_toDigits (by decide) (by decide), lex_number h]

/-! ### Quoted texts -/

theorem hexValue?_hexDigit (n : Nat) : hexValue? (hexDigit n) = some (n % 16) := by
  have each : ∀ m < 16, hexValue? (Nat.digitChar m) = some m := by decide
  exact each (n % 16) (Nat.mod_lt n (by decide))

/-- A control character is read from its four digits. -/
theorem lex_coded {c : Char} (h : c.toNat < 0x100) (front rest : Text) :
    lex (.coded front 3 0) ('0' :: '0' :: hexDigit (c.toNat / 16) :: hexDigit c.toNat :: rest) =
      lex (.inText (front ++ [c])) rest := by
  have zero (k : Nat) : (Lexer.coded front (k + 1) 0).step '0' =
      some ([], .coded front k 0) := rfl
  have third : (Lexer.coded front 1 0).step (hexDigit (c.toNat / 16)) =
      some ([], .coded front 0 (c.toNat / 16 % 16)) := by
    rw [Lexer.step, hexValue?_hexDigit, Option.map_some, Nat.mul_zero, Nat.zero_add]
  have last : (Lexer.coded front 0 (c.toNat / 16 % 16)).step (hexDigit c.toNat) =
      some ([], .inText (front ++ [c])) := by
    have whole : 16 * (c.toNat / 16 % 16) + c.toNat % 16 = c.toNat := by omega
    have valid : c.toNat.isValidChar := c.valid
    rw [Lexer.step, hexValue?_hexDigit]
    show (if _ then _ else _) = _
    rw [whole, if_pos valid, Char.ofNat_toNat]
  rw [lex_cons_of_silent (zero 2), lex_cons_of_silent (zero 1), lex_cons_of_silent third,
    lex_cons_of_silent last]

theorem lex_backslash (front rest : Text) :
    lex (.inText front) ('\\' :: rest) = lex (.escaped front) rest :=
  lex_cons_of_silent rfl rest

/-- A letter behind a backslash is read as what it stands for. -/
theorem lex_letter {letter c : Char} (h : escapedBy? letter = some c) (front rest : Text) :
    lex (.inText front) ('\\' :: letter :: rest) = lex (.inText (front ++ [c])) rest := by
  have step : (Lexer.escaped front).step letter = some ([], .inText (front ++ [c])) := by
    have other : letter ≠ 'u' := by
      rintro rfl
      cases h
    rw [Lexer.step, if_neg other, h]
    rfl
  rw [lex_backslash, lex_cons_of_silent step]

/-- **An escaped character is read as the character**, and cannot end the text
that it stands in. -/
theorem lex_escapeChar (c : Char) (front rest : Text) :
    lex (.inText front) (escapeChar c ++ rest) = lex (.inText (front ++ [c])) rest := by
  have named {d : Char} (h : c.toNat = d.toNat) : c = d := CodeUnit.code_injective h
  rw [escapeChar]
  split
  · rename_i quote
    subst quote
    exact lex_letter rfl front rest
  rename_i noQuote
  split
  · rename_i backslash
    subst backslash
    exact lex_letter rfl front rest
  rename_i noBackslash
  split
  · rename_i code
    exact named (d := '\x08') code ▸ lex_letter rfl front rest
  split
  · rename_i code
    exact named (d := '\t') code ▸ lex_letter rfl front rest
  split
  · rename_i code
    exact named (d := '\n') code ▸ lex_letter rfl front rest
  split
  · rename_i code
    exact named (d := '\x0C') code ▸ lex_letter rfl front rest
  split
  · rename_i code
    exact named (d := '\r') code ▸ lex_letter rfl front rest
  split
  · rename_i control
    have coded : (Lexer.escaped front).step 'u' = some ([], .coded front 3 0) := rfl
    show lex _ ('\\' :: 'u' :: '0' :: '0' :: _ :: _ :: rest) = _
    rw [lex_backslash, lex_cons_of_silent coded, lex_coded (Nat.lt_trans control (by decide))]
  · rename_i plain
    have step : (Lexer.inText front).step c = some ([], .inText (front ++ [c])) := by
      rw [Lexer.step, if_neg noQuote, if_neg noBackslash, if_neg plain]
    exact lex_cons_of_silent step rest

theorem lex_escaped (t front rest : Text) :
    lex (.inText front) (t.flatMap escapeChar ++ rest) = lex (.inText (front ++ t)) rest := by
  induction t generalizing front with
  | nil => rw [List.flatMap_nil, List.nil_append, List.append_nil]
  | cons c t ih =>
    rw [List.flatMap_cons, List.append_assoc, lex_escapeChar, ih, List.append_assoc,
      List.singleton_append]

theorem lex_quoted (t rest : Text) :
    lex .between (quoted t ++ rest) = (lex .between rest).map (.text t :: ·) := by
  have opened : Lexer.between.step '"' = some ([], .inText []) := rfl
  have closed : (Lexer.inText t).step '"' = some ([.text t], .between) := rfl
  rw [quoted, List.cons_append, List.cons_append, lex_cons_of_silent opened, List.append_assoc,
    lex_escaped, List.nil_append, List.singleton_append, lex_cons_of_token closed]

/-! ### Spelled tokens -/

/-- The text spells the tokens, whatever follows, unless it could be taken for
more digits of a number. -/
def Spells (t : Text) (ts : List Token) : Prop :=
  ∀ rest, NoDigit rest → lex .between (t ++ rest) = (lex .between rest).map (ts ++ ·)

theorem spells_nil : Spells [] [] :=
  fun _ _ => Option.map_id_apply.symm

theorem spells_quoted (t : Text) : Spells (quoted t) [.text t] :=
  fun rest _ => lex_quoted t rest

theorem spells_decimal (n : Nat) : Spells (decimal n) [.count n] :=
  fun _ h => lex_decimal h n

namespace Spells

variable {t u : Text} {ts us : List Token}

/-- Texts are read one behind the other, if the second does not go on with
digits. -/
theorem append (ht : Spells t ts) (hu : Spells u us)
    (free : ∀ rest, NoDigit rest → NoDigit (u ++ rest)) : Spells (t ++ u) (ts ++ us) := by
  intro rest h
  rw [List.append_assoc, ht _ (free rest h), hu rest h, Option.map_map]
  congr 1
  funext more
  exact (List.append_assoc ts us more).symm

/-- A sign and what is behind it. -/
theorem cons_sign {c : Char} {tok : Token} (h : Lexer.between.step c = some ([tok], .between))
    (ht : Spells t ts) : Spells (c :: t) (tok :: ts) := by
  intro rest hrest
  rw [List.cons_append, lex_cons_of_token h, ht rest hrest, Option.map_map]
  rfl

/-- What stands in front of a sign. -/
theorem append_sign {c : Char} {tok : Token} (h : Lexer.between.step c = some ([tok], .between))
    (noDigit : c.isDigit = false) (ht : Spells t ts) (hu : Spells u us) :
    Spells (t ++ c :: u) (ts ++ tok :: us) :=
  ht.append (hu.cons_sign h) fun rest _ => noDigit_cons noDigit (u ++ rest)

theorem cons_blank {c : Char} (h : Lexer.between.step c = some ([], .between))
    (ht : Spells t ts) : Spells (c :: t) ts := by
  intro rest hrest
  rw [List.cons_append, lex_cons_of_silent h, ht rest hrest]

/-- Indentation does not count. -/
theorem newLine_append (level : Nat) (ht : Spells t ts) : Spells (newLine level ++ t) ts := by
  have blanks (n : Nat) : Spells (List.replicate n ' ' ++ t) ts := by
    induction n with
    | zero => exact ht
    | succ n ih =>
      rw [List.replicate_succ, List.cons_append]
      exact ih.cons_blank rfl
  rw [newLine, List.cons_append]
  exact (blanks _).cons_blank rfl

theorem append_newLine (level : Nat) (ht : Spells t ts) : Spells (t ++ newLine level) ts := by
  have line := newLine_append level spells_nil
  rw [List.append_nil] at line
  have both := ht.append line fun rest _ => noDigit_cons (by decide) _
  rwa [List.append_nil] at both

/-- Pieces with commas between them. -/
theorem intercalate {α : Type} {print : α → Text} {tokens : α → List Token} {xs : List α}
    (h : ∀ x ∈ xs, Spells (print x) (tokens x)) :
    Spells ([','].intercalate (xs.map print)) ([.comma].intercalate (xs.map tokens)) := by
  induction xs with
  | nil => exact spells_nil
  | cons x xs ih =>
    obtain ⟨first, others⟩ := List.forall_mem_cons.mp h
    cases xs with
    | nil =>
      rw [List.map_singleton, List.map_singleton, List.intercalate_singleton,
        List.intercalate_singleton]
      exact first
    | cons y xs =>
      rw [List.map_cons, List.map_cons, List.map_cons, List.map_cons, List.intercalate_cons_cons,
        List.intercalate_cons_cons, List.append_assoc, List.append_assoc, List.singleton_append,
        List.singleton_append, ← List.map_cons, ← List.map_cons]
      exact first.append_sign rfl (by decide) (ih others)

/-- What is written in brackets. -/
theorem bracket {o c : Char} {before after : Token}
    (opened : Lexer.between.step o = some ([before], .between))
    (closed : Lexer.between.step c = some ([after], .between)) (noDigit : c.isDigit = false)
    (h : Spells t ts) : Spells (o :: t ++ [c]) (before :: ts ++ [after]) :=
  (h.cons_sign opened).append_sign closed noDigit spells_nil

end Spells

end AssetAudit.Json

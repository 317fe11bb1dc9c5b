/-
AssetAudit/Text/Utf8.lean

UTF-8, read one byte at a time.

A character is written as one to four bytes.  The first says how many follow
and bounds the second, so that no character has two spellings and no
surrogate is spelled at all; the rest are continuation bytes.  The reader
keeps what it still expects (`Pending`) and answers, for each piece of its
input, either the character spelled there or `none` for a malformed piece.
A malformed piece is as long as it could still have become a character: the
byte that breaks it is read again as the start of the next piece.

Two ways to use the answer:

* `Utf8.decode?` — the text, if no piece is malformed;
* `Utf8.decodeLossy` — the text with U+FFFD for each malformed piece.
-/
import AssetAudit.Text.CodeUnit

namespace AssetAudit.Utf8

/-! ### Reading -/

/-- A character whose spelling has begun: the bits read so far, the bounds of
the next byte, and how many continuation bytes come after that one. -/
structure Pending where
  bits : Nat
  low : Nat
  high : Nat
  further : Nat

/-- What a byte says when no character has begun. -/
inductive Start where
  | complete (c : Char)
  | opened (p : Pending)
  | malformed

/-- The first byte of a spelling. -/
def start (b : UInt8) : Start :=
  let n := b.toNat
  if n ≤ 0x7F then .complete (Char.ofNat n)
  else if n ≤ 0xC1 then .malformed
  else if n ≤ 0xDF then .opened ⟨n - 0xC0, 0x80, 0xBF, 0⟩
  else if n = 0xE0 then .opened ⟨0, 0xA0, 0xBF, 1⟩
  else if n = 0xED then .opened ⟨0xD, 0x80, 0x9F, 1⟩
  else if n ≤ 0xEF then .opened ⟨n - 0xE0, 0x80, 0xBF, 1⟩
  else if n = 0xF0 then .opened ⟨0, 0x90, 0xBF, 2⟩
  else if n ≤ 0xF3 then .opened ⟨n - 0xF0, 0x80, 0xBF, 2⟩
  else if n = 0xF4 then .opened ⟨4, 0x80, 0x8F, 2⟩
  else .malformed

/-- The bits of a spelling after one more continuation byte. -/
def Pending.push (p : Pending) (b : UInt8) : Nat :=
  p.bits * 64 + (b.toNat - 0x80)

/-- The pieces of `bs`, each a character or malformed, after a spelling that
is still open (`some p`) or between spellings (`none`). -/
def readFrom : Option Pending → Bytes → List (Option Char)
  | none, [] => []
  | some _, [] => [none]
  | none, b :: bs =>
    match start b with
    | .complete c => some c :: readFrom none bs
    | .opened p => readFrom (some p) bs
    | .malformed => none :: readFrom none bs
  | some p, b :: bs =>
    if p.low ≤ b.toNat ∧ b.toNat ≤ p.high then
      match p.further with
      | 0 => some (Char.ofNat (p.push b)) :: readFrom none bs
      | k + 1 => readFrom (some ⟨p.push b, 0x80, 0xBF, k⟩) bs
    else
      match start b with
      | .complete c => none :: some c :: readFrom none bs
      | .opened q => none :: readFrom (some q) bs
      | .malformed => none :: none :: readFrom none bs

/-- The pieces of `bs`, each a character or malformed. -/
def read (bs : Bytes) : List (Option Char) :=
  readFrom none bs

/-- The text that `bs` spells, if all of it is well formed. -/
def decode? (bs : Bytes) : Option Text :=
  (read bs).mapM id

/-- U+FFFD, which stands for a piece that spells no character. -/
def replacement : Char := '\uFFFD'

/-- The text that `bs` spells, with U+FFFD for each malformed piece. -/
def decodeLossy (bs : Bytes) : Text :=
  (read bs).map (·.getD replacement)

/-! ### Writing -/

/-- The spelling of a text. -/
def encode (cs : Text) : Bytes :=
  cs.flatMap String.utf8EncodeChar

@[simp] theorem encode_cons (c : Char) (cs : Text) :
    encode (c :: cs) = String.utf8EncodeChar c ++ encode cs := rfl

@[simp] theorem encode_append (cs ds : Text) : encode (cs ++ ds) = encode cs ++ encode ds := by
  simp [encode]

/-! ### The two readings agree -/

private theorem mapM_id_eq_some {xs : List (Option Char)} {cs : Text} (h : xs.mapM id = some cs) :
    xs.map (·.getD replacement) = cs := by
  induction xs generalizing cs with
  | nil => simpa using h.symm
  | cons x xs ih =>
    rw [List.mapM_cons] at h
    cases x with
    | none => simp at h
    | some c =>
      cases hx : List.mapM id xs with
      | none => simp [hx] at h
      | some ds =>
        simp [hx] at h
        simp [← h, ih hx]

/-- Where the bytes are well formed, nothing is replaced. -/
theorem decodeLossy_of_decode? {bs : Bytes} {cs : Text} (h : decode? bs = some cs) :
    decodeLossy bs = cs :=
  mapM_id_eq_some h

end AssetAudit.Utf8

namespace AssetAudit

/-- The spelling of a word of the program or of its system. -/
def bytesOf (s : String) : Bytes :=
  Utf8.encode s.toList

end AssetAudit

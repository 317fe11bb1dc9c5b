/-
AssetAudit/Source/Encoding.lean

Tolerant reading of source files.

Source files are nearly always UTF-8, but old projects hold files in
single-byte encodings.  A file that is well-formed UTF-8 is read as that;
any other is read as Latin-1, where every byte is one character, so every
file has a reading and ASCII survives in both.
-/
import AssetAudit.Text.Utf8

namespace AssetAudit

/-- How the bytes of a source file spell its text. -/
inductive Encoding where
  | utf8
  | latin1
  deriving DecidableEq, Repr

/-- The Latin-1 text of `bs`: one character for each byte. -/
def decodeLatin1 (bs : Bytes) : Text :=
  bs.map Char.ofUInt8

namespace Encoding

/-- The encoding a source file is read with. -/
def detect (bs : Bytes) : Encoding :=
  if (Utf8.decode? bs).isSome then .utf8 else .latin1

/-- The text of `bs` in an encoding. -/
def decode : Encoding → Bytes → Text
  | .utf8, bs => Utf8.decodeLossy bs
  | .latin1, bs => decodeLatin1 bs

end Encoding

/-- The text of a source file. -/
def sourceText (bs : Bytes) : Text :=
  (Encoding.detect bs).decode bs

theorem sourceText_of_decode? {bs : Bytes} {cs : Text} (h : Utf8.decode? bs = some cs) :
    sourceText bs = cs := by
  simp [sourceText, Encoding.detect, h, Encoding.decode, Utf8.decodeLossy_of_decode? h]

theorem sourceText_of_decode?_eq_none {bs : Bytes} (h : Utf8.decode? bs = none) :
    sourceText bs = decodeLatin1 bs := by
  simp [sourceText, Encoding.detect, h, Encoding.decode]

end AssetAudit

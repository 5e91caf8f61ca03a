import Raeva.Maven.Text

/-!
# Digests

Content digests as lowercase hex, `rv-maven-types/src/digest.rs`.  A value can
only be built from hex digits of the algorithm's length.
-/

namespace Raeva

def isLowerHexDigit (c : Char) : Bool :=
  Text.isAsciiDigit c || ('a' ≤ c && c ≤ 'f')

/-- A text of `n` lowercase hex digits. -/
structure Hex (n : ℕ) where
  hex : Text
  valid : hex.length = n ∧ hex.all isLowerHexDigit = true
  deriving DecidableEq

abbrev Md5 := Hex 32
abbrev Sha1 := Hex 40
abbrev Sha256 := Hex 64

@[ext] theorem Hex.ext {n : ℕ} {a b : Hex n} (h : a.hex = b.hex) : a = b := by
  cases a
  cases b
  cases h
  rfl

theorem Hex.isLowerHexDigit_of_mem {n : ℕ} {digest : Hex n} {c : Char} (h : c ∈ digest.hex) :
    isLowerHexDigit c = true :=
  List.all_eq_true.mp digest.valid.2 c h

theorem toNat_of_isLowerHexDigit {c : Char} (h : isLowerHexDigit c = true) : 0x20 ≤ c.toNat := by
  have hzero : '0'.val.toNat = 48 := rfl
  have ha : 'a'.val.toNat = 97 := rfl
  simp only [isLowerHexDigit, Text.isAsciiDigit, Bool.or_eq_true, Bool.and_eq_true,
    decide_eq_true_eq, Char.le_def, UInt32.le_iff_toNat_le] at h
  rw [Char.toNat]
  omega

/-- The SHA-256 of the bytes it is fed. -/
class ContentHash where
  sha256 : List UInt8 → Sha256

inductive HashAlgorithm where
  | md5
  | sha1
  | sha256
  deriving DecidableEq

inductive Digest where
  | md5 (digest : Md5)
  | sha1 (digest : Sha1)
  | sha256 (digest : Sha256)
  deriving DecidableEq

namespace Digest

def algorithm : Digest → HashAlgorithm
  | md5 _ => .md5
  | sha1 _ => .sha1
  | sha256 _ => .sha256

def hex : Digest → Text
  | md5 digest => digest.hex
  | sha1 digest => digest.hex
  | sha256 digest => digest.hex

end Digest

def HashAlgorithm.name : HashAlgorithm → Text
  | md5 => "md5"
  | sha1 => "sha1"
  | sha256 => "sha256"

def Digest.sortKey (digest : Digest) : List Text :=
  [digest.algorithm.name, digest.hex]

end Raeva

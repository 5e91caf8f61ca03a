import Raeva.Library.Utf8
import Raeva.Maven.Text

/-!
# Credentials of a proxy

`percent_decode` reads the user name and the password of a proxy URL.  It leaves the
two characters after a `%` to the number parser of the standard library, which also
takes a sign: `%+A` is read like `%0A`.
-/

namespace Raeva.Config

open List

def hexDigit (b : UInt8) : Option ℕ :=
  if 48 ≤ b.toNat ∧ b.toNat ≤ 57 then some (b.toNat - 48)
  else if 65 ≤ b.toNat ∧ b.toNat ≤ 70 then some (b.toNat - 55)
  else if 97 ≤ b.toNat ∧ b.toNat ≤ 102 then some (b.toNat - 87)
  else none

/-- `u8::from_str_radix` with the radix 16, which takes a `+` before the digits. -/
def fromStrRadix (text : List UInt8) : Option UInt8 := do
  let digits := if text.head? = some 43 then text.tail else text
  if digits = [] then none
  let values ← digits.mapM hexDigit
  let n := values.foldl (fun n value => 16 * n + value) 0
  if n < 256 then some (UInt8.ofNat n) else none

/-- The loop of `percent_decode`. -/
def decodeBytes : List UInt8 → Option (List UInt8)
  | [] => some []
  | b :: rest =>
    if b = 37 then
      match rest with
      -- a slice that would cut a character fails as well: its bytes are no digits
      | x :: y :: rest => do
        let byte ← fromStrRadix [x, y]
        let out ← decodeBytes rest
        some (byte :: out)
      | _ => none
    else do
      let out ← decodeBytes rest
      some (b :: out)

def percentDecode (text : Text) : Option Text :=
  (decodeBytes (utf8 text)).bind fromUtf8

/-- The text encodes these bytes, each as it is or as a `%` and two hexadecimal digits. -/
inductive PercentEncodes : List UInt8 → List UInt8 → Prop where
  | nil : PercentEncodes [] []
  | plain {b : UInt8} {text bytes : List UInt8} (hb : b ≠ 37) (h : PercentEncodes text bytes) :
      PercentEncodes (b :: text) (b :: bytes)
  | escape {x y : UInt8} {m n : ℕ} {text bytes : List UInt8} (hx : hexDigit x = some m)
      (hy : hexDigit y = some n) (h : PercentEncodes text bytes) :
      PercentEncodes (37 :: x :: y :: text) (UInt8.ofNat (16 * m + n) :: bytes)

/-- The text is read as these bytes: an escape is a `%` with two hexadecimal digits, or with a `+`
and one digit. -/
inductive ReadsAs : List UInt8 → List UInt8 → Prop where
  | nil : ReadsAs [] []
  | plain {b : UInt8} {text bytes : List UInt8} (hb : b ≠ 37) (h : ReadsAs text bytes) :
      ReadsAs (b :: text) (b :: bytes)
  | escape {x y : UInt8} {m n : ℕ} {text bytes : List UInt8} (hx : hexDigit x = some m)
      (hy : hexDigit y = some n) (h : ReadsAs text bytes) :
      ReadsAs (37 :: x :: y :: text) (UInt8.ofNat (16 * m + n) :: bytes)
  | signed {y : UInt8} {n : ℕ} {text bytes : List UInt8} (hy : hexDigit y = some n)
      (h : ReadsAs text bytes) : ReadsAs (37 :: 43 :: y :: text) (UInt8.ofNat n :: bytes)

/-- A `%` with a sign and one digit. -/
def Signed (text : List UInt8) : Prop :=
  ∃ y, [37, 43, y] <:+: text ∧ (hexDigit y).isSome = true

variable {text bytes : List UInt8}

theorem hexDigit_lt {b : UInt8} {value : ℕ} (h : hexDigit b = some value) : value < 16 := by
  rw [hexDigit] at h
  split_ifs at h <;> cases h <;> omega

theorem hexDigit_ne {b : UInt8} {value : ℕ} (h : hexDigit b = some value) : b ≠ 37 ∧ b ≠ 43 := by
  constructor <;> rintro rfl <;> cases h

theorem fromStrRadix_pair {x y byte : UInt8} : fromStrRadix [x, y] = some byte ↔
    ∃ n, hexDigit y = some n ∧ (x = 43 ∧ byte = UInt8.ofNat n ∨
      ∃ m, hexDigit x = some m ∧ byte = UInt8.ofNat (16 * m + n)) := by
  have hplus : hexDigit 43 = none := by decide
  cases hy : hexDigit y with
  | none => by_cases hx : x = 43 <;> simp [fromStrRadix, hx, hy]
  | some n =>
    have hn := hexDigit_lt hy
    by_cases hx : x = 43
    · subst hx
      simp [fromStrRadix, hy]
      grind
    · cases hx' : hexDigit x with
      | none => simp [fromStrRadix, hx, hy, hx']
      | some m =>
        have hm := hexDigit_lt hx'
        have hlt : 16 * m + n < 256 := by omega
        simp [fromStrRadix, hx, hy, hx', hlt]
        exact eq_comm

theorem PercentEncodes.readsAs (h : PercentEncodes text bytes) : ReadsAs text bytes := by
  induction h with
  | nil => exact .nil
  | plain hb _ ih => exact .plain hb ih
  | escape hx hy _ ih => exact .escape hx hy ih

theorem ReadsAs.percentEncodes (h : ReadsAs text bytes) (hsigned : ¬Signed text) :
    PercentEncodes text bytes := by
  have hlater {text rest : List UInt8} (hsigned : ¬Signed text) (hsuffix : rest <:+ text) :
      ¬Signed rest := by
    rintro ⟨y, hy, hdigit⟩
    exact hsigned ⟨y, hy.trans hsuffix.isInfix, hdigit⟩
  induction h with
  | nil => exact .nil
  | @plain b text _ hb _ ih => exact .plain hb (ih (hlater hsigned (suffix_cons b text)))
  | @escape x y _ _ text _ hx hy _ ih =>
    exact .escape hx hy (ih (hlater hsigned (suffix_append [37, x, y] text)))
  | @signed y _ text _ hy _ ih =>
    exact absurd ⟨y, infix_append [] [37, 43, y] text, hy ▸ rfl⟩ hsigned

/-- The loop reads a text by the two forms of an escape. -/
theorem decodeBytes_eq_some : decodeBytes text = some bytes ↔ ReadsAs text bytes := by
  constructor
  · intro h
    fun_induction decodeBytes text generalizing bytes with
    | case1 =>
      cases h
      exact .nil
    | case2 x y rest ih =>
      obtain ⟨byte, hbyte, h⟩ := Option.bind_eq_some_iff.mp h
      obtain ⟨out, hout, h⟩ := Option.bind_eq_some_iff.mp h
      cases h
      obtain ⟨n, hy, ⟨rfl, rfl⟩ | ⟨m, hx, rfl⟩⟩ := fromStrRadix_pair.mp hbyte
      · exact .signed hy (ih hout)
      · exact .escape hx hy (ih hout)
    | case3 => cases h
    | case4 b rest hb ih =>
      obtain ⟨out, hout, h⟩ := Option.bind_eq_some_iff.mp h
      cases h
      exact .plain hb (ih hout)
  · intro h
    induction h with
    | nil => rfl
    | plain hb _ ih =>
      rw [decodeBytes.eq_def]
      simp [hb, ih]
    | escape hx hy _ ih =>
      rw [decodeBytes, if_pos rfl, fromStrRadix_pair.mpr ⟨_, hy, .inr ⟨_, hx, rfl⟩⟩, ih]
      rfl
    | signed hy _ ih =>
      rw [decodeBytes, if_pos rfl, fromStrRadix_pair.mpr ⟨_, hy, .inl ⟨rfl, rfl⟩⟩, ih]
      rfl

theorem PercentEncodes.not_signed (h : PercentEncodes text bytes) : ¬ Signed text := by
  rintro ⟨z, hinfix, -⟩
  induction h with
  | nil => simp at hinfix
  | plain hb h ih =>
    rcases infix_cons_iff.mp hinfix with h | h
    · exact hb (cons_prefix_cons.mp h).1.symm
    · exact ih h
  | escape hx hy h ih =>
    simp only [infix_cons_iff, cons_prefix_cons] at hinfix
    rcases hinfix with h | h | h | h
    · exact (hexDigit_ne hx).2 h.2.1.symm
    · exact (hexDigit_ne hx).1 h.1.symm
    · exact (hexDigit_ne hy).1 h.1.symm
    · exact ih h

theorem percentDecode_eq_some {text s : Text} :
    percentDecode text = some s ↔ ReadsAs (utf8 text) (utf8 s) := by
  rw [← decodeBytes_eq_some, percentDecode, Option.bind_eq_some_iff]
  simp [fromUtf8_eq_some]

/-- A text is read exactly if it encodes one, which it is read as, unless one of its escapes is a
`%` with a sign and a digit, all others are such or have two digits, and the bytes are UTF-8. -/
theorem percentDecode_exact (text : Text) :
    (((percentDecode text).isSome = true ↔ ∃ s, PercentEncodes (utf8 text) (utf8 s)) ∧
      ∀ s, PercentEncodes (utf8 text) (utf8 s) → percentDecode text = some s) ↔
    ¬(Signed (utf8 text) ∧ ∃ s, ReadsAs (utf8 text) (utf8 s)) := by
  have hsome : (percentDecode text).isSome = true ↔ ∃ s, ReadsAs (utf8 text) (utf8 s) := by
    rw [Option.isSome_iff_exists]
    exact exists_congr fun s => percentDecode_eq_some
  rw [hsome]
  constructor
  · rintro ⟨h, -⟩ ⟨hsigned, hreads⟩
    obtain ⟨s, hs⟩ := h.mp hreads
    exact hs.not_signed hsigned
  · refine fun h => ⟨⟨fun hreads => ?_, ?_⟩, fun s hs => percentDecode_eq_some.mpr hs.readsAs⟩
    · obtain ⟨s, hs⟩ := hreads
      exact ⟨s, hs.percentEncodes fun hsigned => h ⟨hsigned, s, hs⟩⟩
    · rintro ⟨s, hs⟩
      exact ⟨s, hs.readsAs⟩

/-- A sign is read where a digit should be. -/
theorem percentDecode_signed :
    percentDecode ['%', '+', 'A'] = some ['\n'] ∧
      ¬ ∃ s, PercentEncodes (utf8 ['%', '+', 'A']) (utf8 s) := by
  refine ⟨percentDecode_eq_some.mpr (.signed (by decide) .nil), ?_⟩
  rintro ⟨s, hs⟩
  exact hs.not_signed ⟨65, by decide, by decide⟩

end Raeva.Config

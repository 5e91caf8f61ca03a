import Raeva.Library.Framing

/-!
# UTF-16

The 16-bit units of a text.  No character is a surrogate, so the units tell where
each character ends.
-/

namespace Raeva.Utf16

def units (c : Char) : List ℕ :=
  if c.toNat < 0x10000 then [c.toNat]
  else [0xD800 + (c.toNat - 0x10000) / 0x400, 0xDC00 + (c.toNat - 0x10000) % 0x400]

def encode (t : List Char) : List ℕ :=
  t.flatMap units

theorem toNat_cases (c : Char) : c.toNat < 0xD800 ∨ 0xDFFF < c.toNat ∧ c.toNat < 0x110000 :=
  c.valid

theorem units_selfDelimiting : SelfDelimiting (fun _ : Char => True) units := by
  intro c d _ _ s t h
  have hc := toNat_cases c
  have hd := toNat_cases d
  have hchar : c.toNat = d.toNat → c = d := fun heq => Char.toNat_inj.mp heq
  rw [units, units] at h
  split at h <;> split at h <;>
    simp only [List.cons_append, List.nil_append, List.cons.injEq] at h
  · exact ⟨hchar h.1, h.2⟩
  · omega
  · omega
  · exact ⟨hchar (by omega), h.2.2⟩

theorem encode_injective : Function.Injective encode := by
  intro a b h
  refine units_selfDelimiting.flatMap_inj (fun c _ hc => ?_) (fun _ _ => trivial)
    (fun _ _ => trivial) h
  rw [units] at hc
  split at hc <;> cases hc

/-- `String::from_utf16_lossy`: a surrogate without its partner becomes U+FFFD. -/
def decodeLossy : List ℕ → List Char
  | [] => []
  | [u] => [Char.ofNat (if u < 0xD800 ∨ 0xE000 ≤ u then u else 0xFFFD)]
  | u :: v :: rest =>
    if u < 0xD800 ∨ 0xE000 ≤ u then Char.ofNat u :: decodeLossy (v :: rest)
    else if u < 0xDC00 ∧ 0xDC00 ≤ v ∧ v < 0xE000 then
      Char.ofNat (0x10000 + (u - 0xD800) * 0x400 + (v - 0xDC00)) :: decodeLossy rest
    else Char.ofNat 0xFFFD :: decodeLossy (v :: rest)

theorem decodeLossy_units (c : Char) (rest : List ℕ) :
    decodeLossy (units c ++ rest) = c :: decodeLossy rest := by
  have hc := toNat_cases c
  rw [units]
  split
  · have hplain : c.toNat < 0xD800 ∨ 0xE000 ≤ c.toNat := by omega
    cases rest <;> simp [decodeLossy, hplain]
  have hvalue : 0x10000 + (0xD800 + (c.toNat - 0x10000) / 0x400 - 0xD800) * 0x400 +
      (0xDC00 + (c.toNat - 0x10000) % 0x400 - 0xDC00) = c.toNat := by omega
  rw [List.cons_append, List.singleton_append, decodeLossy, if_neg (by omega),
    if_pos (by omega), hvalue, Char.ofNat_toNat]

theorem decodeLossy_encode (t : List Char) : decodeLossy (encode t) = t := by
  induction t with
  | nil => rfl
  | cons c t ih => rw [encode, List.flatMap_cons, decodeLossy_units, ← encode, ih]

end Raeva.Utf16

import Mathlib.Algebra.GroupWithZero.Nat
import Mathlib.Data.List.Basic
import Mathlib.Data.Nat.Basic

/-!
# Framing

Codes that say themselves where they end.  A sequence of such codes can be
read in one way only, so a text that is put together from them binds all of
its parts.
-/

namespace Raeva

open List

variable {α α' β : Type}

/-- Values of `P` whose codes start the same text are equal, and so is what
follows the codes. -/
def SelfDelimiting (P : α → Prop) (code : α → List β) : Prop :=
  ∀ ⦃a b : α⦄, P a → P b → ∀ ⦃s t : List β⦄, code a ++ s = code b ++ t → a = b ∧ s = t

namespace SelfDelimiting

variable {P Q : α → Prop} {P' : α' → Prop} {code : α → List β} {code' : α' → List β}
  {l l' : List α}

theorem mono (h : SelfDelimiting P code) (hPQ : ∀ a, Q a → P a) : SelfDelimiting Q code :=
  fun a b ha hb => @h a b (hPQ a ha) (hPQ b hb)

theorem of_length {n : ℕ} (hlength : ∀ a, P a → (code a).length = n)
    (hinj : ∀ a b, P a → P b → code a = code b → a = b) : SelfDelimiting P code := by
  intro a b ha hb s t h
  obtain ⟨hcode, hrest⟩ := append_inj h ((hlength a ha).trans (hlength b hb).symm)
  exact ⟨hinj a b ha hb hcode, hrest⟩

theorem flatMap (h : SelfDelimiting P code) (hlength : l.length = l'.length) (hl : ∀ a ∈ l, P a)
    (hl' : ∀ a ∈ l', P a) {s t : List β} (hcode : l.flatMap code ++ s = l'.flatMap code ++ t) :
    l = l' ∧ s = t := by
  induction l generalizing l' with
  | nil =>
    obtain rfl := length_eq_zero_iff.mp hlength.symm
    exact ⟨rfl, hcode⟩
  | cons a l ih =>
    cases l' with
    | nil => cases hlength
    | cons b l' =>
      simp only [flatMap_cons, append_assoc] at hcode
      obtain ⟨rfl, htail⟩ := h (hl a mem_cons_self) (hl' b mem_cons_self) hcode
      obtain ⟨rfl, hrest⟩ := ih (Nat.succ.inj hlength)
        (fun x hx => hl x (mem_cons_of_mem a hx))
        (fun x hx => hl' x (mem_cons_of_mem a hx)) htail
      exact ⟨rfl, hrest⟩

theorem flatMap_inj (h : SelfDelimiting P code) (hne : ∀ a, P a → code a ≠ []) (hl : ∀ a ∈ l, P a)
    (hl' : ∀ a ∈ l', P a) (hcode : l.flatMap code = l'.flatMap code) : l = l' := by
  induction l generalizing l' with
  | nil =>
    cases l' with
    | nil => rfl
    | cons b l' =>
      have hb := hne b (hl' b mem_cons_self)
      simp [hb] at hcode
  | cons a l ih =>
    cases l' with
    | nil =>
      have ha := hne a (hl a mem_cons_self)
      simp [ha] at hcode
    | cons b l' =>
      simp only [flatMap_cons] at hcode
      obtain ⟨rfl, htail⟩ := h (hl a mem_cons_self) (hl' b mem_cons_self) hcode
      rw [ih (fun x hx => hl x (mem_cons_of_mem a hx))
        (fun x hx => hl' x (mem_cons_of_mem a hx)) htail]

theorem map_inj {f : α → β} (hf : ∀ a b, P a → P b → f a = f b → a = b) (hl : ∀ a ∈ l, P a)
    (hl' : ∀ a ∈ l', P a) (h : l.map f = l'.map f) : l = l' := by
  have hcode : SelfDelimiting P fun a => [f a] :=
    .of_length (fun _ _ => rfl) fun a b ha hb hab => hf a b ha hb (singleton_inj.mp hab)
  refine hcode.flatMap_inj (fun _ _ => cons_ne_nil _ _) hl hl' ?_
  rwa [← map_eq_flatMap, ← map_eq_flatMap]

end SelfDelimiting

/-! ## Counts -/

section Counted

variable {N : ℕ → Prop} {count : ℕ → List β} {P : α → Prop} {code : α → List β}

def counted (count : ℕ → List β) (code : α → List β) (l : List α) : List β :=
  count l.length ++ l.flatMap code

theorem counted_map (count : ℕ → List β) (code : α → List β) (f : α' → α) (l : List α') :
    counted count code (l.map f) = counted count (fun a => code (f a)) l := by
  simp [counted, flatMap_map]

theorem SelfDelimiting.counted (hcount : SelfDelimiting N count) (h : SelfDelimiting P code) :
    SelfDelimiting (fun l : List α => N l.length ∧ ∀ a ∈ l, P a) (counted count code) := by
  rintro l l' ⟨hN, hl⟩ ⟨hN', hl'⟩ s t hcode
  simp only [Raeva.counted, append_assoc] at hcode
  obtain ⟨hlength, hcode⟩ := hcount hN hN' hcode
  exact h.flatMap hlength hl hl' hcode

def framed (count : ℕ → List β) (text : List β) : List β :=
  count text.length ++ text

theorem SelfDelimiting.framed (hcount : SelfDelimiting N count) :
    SelfDelimiting (fun text : List β => N text.length) (framed count) := by
  intro a b ha hb s t hcode
  simp only [Raeva.framed, append_assoc] at hcode
  obtain ⟨hlength, hcode⟩ := hcount ha hb hcode
  exact append_inj hcode hlength

def framedOption (count : ℕ → List β) (marker : ℕ) : Option (List β) → List β
  | some text => framed count text
  | none => count marker

theorem SelfDelimiting.framedOption (hcount : SelfDelimiting N count) {marker : ℕ}
    (hmarker : N marker) :
    SelfDelimiting (fun text : Option (List β) => ∀ b ∈ text, N b.length ∧ b.length ≠ marker)
      (framedOption count marker) := by
  rintro (_ | a) (_ | b) ha hb s t hcode
  · exact ⟨rfl, append_cancel_left hcode⟩
  · obtain ⟨hN, hne⟩ := hb b rfl
    simp only [Raeva.framedOption, Raeva.framed, append_assoc] at hcode
    exact absurd (hcount hmarker hN hcode).1.symm hne
  · obtain ⟨hN, hne⟩ := ha a rfl
    simp only [Raeva.framedOption, Raeva.framed, append_assoc] at hcode
    exact absurd (hcount hN hmarker hcode).1 hne
  · obtain ⟨rfl, hrest⟩ := SelfDelimiting.framed hcount (ha a rfl).1 (hb b rfl).1 hcode
    exact ⟨rfl, hrest⟩

end Counted

/-! ## Bytes -/

/-- The lowest `k` bytes of a number, the lowest first. -/
def leBytes : ℕ → ℕ → List UInt8
  | 0, _ => []
  | k + 1, n => UInt8.ofNat n :: leBytes k (n / 256)

@[simp] theorem length_leBytes (k n : ℕ) : (leBytes k n).length = k := by
  induction k generalizing n with
  | zero => rfl
  | succ k ih => simp [leBytes, ih]

theorem leBytes_inj {k m n : ℕ} (hm : m < 256 ^ k) (hn : n < 256 ^ k)
    (h : leBytes k m = leBytes k n) : m = n := by
  induction k generalizing m n with
  | zero =>
    rw [Nat.pow_zero, Nat.lt_one_iff] at hm hn
    rw [hm, hn]
  | succ k ih =>
    obtain ⟨hhead, htail⟩ := List.cons.inj h
    have hmod : m % 256 = n % 256 := by simpa using congrArg UInt8.toNat hhead
    rw [Nat.pow_succ] at hm hn
    have hdiv : m / 256 = n / 256 := ih (by omega) (by omega) htail
    omega

theorem leBytes_selfDelimiting (k : ℕ) : SelfDelimiting (· < 256 ^ k) (leBytes k) :=
  .of_length (fun n _ => length_leBytes k n) fun _ _ hm hn => leBytes_inj hm hn

def le64 : ℕ → List UInt8 :=
  leBytes 8

theorem le64_selfDelimiting : SelfDelimiting (· < 2 ^ 64) le64 :=
  (leBytes_selfDelimiting 8).mono fun n hn => by omega

end Raeva

import Raeva.Maven.VersionOrder

/-!
# Laws of the order of versions

`Version::cmp` is antisymmetric on all versions.  Among versions whose first
items are of one kind it is the lexicographic order of their runs, and equal
versions have equal items.  A version that starts with text, or whose numbers
are all zero, equals `0`; the hash of such a version is that of nothing.
-/

namespace Raeva

open List

namespace Item

theorem eq_of_cmp_eq {x y : Item} (h : x.cmp y = .eq) : x = y := by
  cases x <;> cases y <;> simp [cmp, variant, cmpNumber] at h <;> first | rfl | skip
  · rw [h]
  · rw [h]
  · rw [h.2]

end Item

namespace Version

theorem cmpItems_swap (number : Bool) (l l' : List Item) :
    cmpItems number l l' = (cmpItems number l' l).swap := by
  induction l generalizing number l' with
  | nil =>
    cases l' with
    | nil => rfl
    | cons y l' => rw [cmpItems.eq_2 _ _ (by simp), cmpItems.eq_3 _ _ (by simp)]
  | cons x l ih =>
    cases l' with
    | nil =>
      rw [cmpItems.eq_2 _ _ (by simp), cmpItems.eq_3 _ _ (by simp), Ordering.swap_swap]
    | cons y l' =>
      rw [cmpItems, cmpItems]
      by_cases hxy : x.isNumber = y.isNumber
      · have hswap : y.cmp x = (x.cmp y).swap := Std.OrientedCmp.eq_swap
        rw [if_neg (not_not.mpr hxy), if_neg (not_not.mpr hxy.symm), hswap, hxy, ih]
        cases x.cmp y <;> simp
      · rw [if_pos hxy, if_pos (Ne.symm hxy)]
        by_cases hx : x.isNumber = number
        · have hy : y.isNumber ≠ number := fun hy => hxy (hx.trans hy.symm)
          rw [if_pos hx, if_neg hy, Ordering.swap_swap]
        · have hy : y.isNumber = number := by
            cases hx' : x.isNumber <;> simp_all
          rw [if_neg hx, if_pos hy]

theorem cmpItems_self (number : Bool) (l : List Item) : cmpItems number l l = .eq := by
  induction l generalizing number with
  | nil => rfl
  | cons x l ih =>
    have hself : x.cmp x = .eq := Std.ReflCmp.compare_self
    rw [cmpItems, if_neg (not_not.mpr rfl), hself]
    exact ih x.isNumber

/-! ## Equal versions -/

variable {l : List Item} {number : Bool}

theorem comparePadding_eq_iff {items : List Item} {number : Option Bool} :
    comparePadding items number = .eq ↔
      ∀ x ∈ items, number.all (x.isNumber == ·) = true → x.cmpPadding = .eq := by
  induction items with
  | nil => simp
  | cons x items ih =>
    cases hx : number.all (x.isNumber == ·) with
    | true =>
      rw [comparePadding_cons_of x items hx]
      simp [Ordering.then_eq_eq, ih, hx]
    | false =>
      have hskip : comparePadding (x :: items) number = comparePadding items number := by
        simp [comparePadding, hx]
      rw [hskip]
      simp [ih, hx]

theorem comparePadding_ne_of_continues (htrim : Trimmed number l)
    (h : continuesRun Item.isNumber number l = true) : comparePadding l (some number) ≠ .eq := by
  intro heq
  rw [comparePadding_eq_iff] at heq
  induction l with
  | nil => simp [continuesRun] at h
  | cons x l ih =>
    have hkind : x.isNumber = number := by simpa [continuesRun] using h
    have hpad := heq x mem_cons_self (by simp [hkind])
    have hcont := (htrim.2 hkind).resolve_left (not_not.mpr hpad)
    exact ih (hkind ▸ htrim.1) hcont fun y hy => heq y (mem_cons_of_mem x hy)

theorem comparePadding_ne_of_endsProper (h : EndsProper l) (hl : l ≠ []) :
    comparePadding l none ≠ .eq := by
  intro heq
  rw [comparePadding_eq_iff] at heq
  have hlast := getLast?_eq_some_getLast hl
  exact h _ hlast (heq _ (getLast_mem hl) rfl)

theorem eq_of_cmpItems_eq {l' : List Item} (htrim : Trimmed number l) (htrim' : Trimmed number l')
    (hends : EndsProper l) (hends' : EndsProper l') (h : cmpItems number l l' = .eq) : l = l' := by
  induction l generalizing number l' with
  | nil =>
    cases l' with
    | nil => rfl
    | cons y l' =>
      rw [cmpItems.eq_2 _ _ (by simp), Ordering.swap_eq_eq] at h
      exact absurd h (comparePadding_ne_of_endsProper hends' (by simp))
  | cons x l ih =>
    cases l' with
    | nil =>
      rw [cmpItems.eq_3 _ _ (by simp)] at h
      exact absurd h (comparePadding_ne_of_endsProper hends (by simp))
    | cons y l' =>
      rw [cmpItems] at h
      by_cases hxy : x.isNumber = y.isNumber
      · rw [if_neg (not_not.mpr hxy)] at h
        cases hcmp : x.cmp y with
        | lt | gt => simp [hcmp] at h
        | eq =>
          simp only [hcmp] at h
          have htail := ih htrim.1 (hxy ▸ htrim'.1) hends.tail hends'.tail h
          rw [Item.eq_of_cmp_eq hcmp, htail]
      · rw [if_pos hxy] at h
        split at h
        · rename_i hx
          exact absurd h (comparePadding_ne_of_continues htrim (by simpa [continuesRun] using hx))
        rename_i hx
        have hy : y.isNumber = number := by
          cases hx' : x.isNumber <;> simp_all
        rw [Ordering.swap_eq_eq] at h
        exact absurd h
          (comparePadding_ne_of_continues htrim' (by simpa [continuesRun] using hy))

section Order

variable [Lowercase]

theorem items_endsProper {v : Version} {first : Item} {rest : List Item}
    (h : v.items = first :: rest) : EndsProper rest := by
  obtain ⟨rest', rfl⟩ := items_eq_cons h
  exact (trimAfter_ok first rest').ends

theorem items_eq_of_cmp_eq {number : Bool} {a b : Version} (ha : a.StartsWith number)
    (hb : b.StartsWith number) (h : a.cmp b = .eq) : a.items = b.items := by
  obtain ⟨x, l, hl, hx⟩ := ha
  obtain ⟨y, l', hl', hy⟩ := hb
  have hxy : x.isNumber = y.isNumber := hx.trans hy.symm
  rw [cmp, hl, hl', cmpItems, if_neg (not_not.mpr hxy)] at h
  cases hcmp : x.cmp y with
  | lt | gt => simp [hcmp] at h
  | eq =>
    simp only [hcmp] at h
    have htail := eq_of_cmpItems_eq (items_trimmed hl) (hxy ▸ items_trimmed hl')
      (items_endsProper hl) (items_endsProper hl') h
    rw [hl, hl', Item.eq_of_cmp_eq hcmp, htail]

/-- The order of versions is antisymmetric.  Among versions that start with a
number, and among those that start with text, it is the lexicographic order of
their padded runs, hence transitive, and only equal items compare equal. -/
theorem cmp_laws :
    (∀ a b : Version, a.cmp b = (b.cmp a).swap) ∧ ∀ number : Bool,
        (∀ a b c : Version, a.StartsWith number → b.StartsWith number → c.StartsWith number →
          ((a.cmp b).isLE = true → (b.cmp c).isLE = true → (a.cmp c).isLE = true) ∧
          ∀ rel, a.cmp b = rel → b.cmp c = rel → a.cmp c = rel) ∧
        (∀ a b : Version, a.StartsWith number → b.StartsWith number →
          (a.cmp b = .eq ↔ a.items = b.items)) ∧
        ∀ a b : Version, a.StartsWith number → b.StartsWith number →
          a.cmp b = runsCmp Item.pad Item.cmp number (alternating Item.isNumber number a.items)
            (alternating Item.isNumber number b.items) := by
  refine ⟨fun a b => cmpItems_swap true a.items b.items, fun number => ⟨?_, ?_, ?_⟩⟩
  · intro a b c ha hb hc
    rw [cmp_eq_cmpRuns ha hb, cmp_eq_cmpRuns hb hc, cmp_eq_cmpRuns ha hc]
    refine ⟨Std.TransCmp.isLE_trans, fun rel hab hbc => ?_⟩
    cases rel with
    | lt => exact Std.TransCmp.lt_trans hab hbc
    | eq => exact Std.TransCmp.eq_trans hab hbc
    | gt => exact Std.TransCmp.gt_trans hab hbc
  · intro a b ha hb
    refine ⟨items_eq_of_cmp_eq ha hb, fun h => ?_⟩
    rw [cmp, h]
    exact cmpItems_self true b.items
  · exact fun a b ha hb => cmp_eq_cmpRuns ha hb

end Order

section Release

local instance releaseLowercase : Lowercase := asciiLowercase

/-- A release between a pre-release and a patch, and two qualifiers. -/
theorem cmp_laws_release :
    (Version.mk "1.0-alpha").cmp ⟨"1.0.1"⟩ = .lt ∧
      (Version.mk "1.0-ga").items = (Version.mk "1").items ∧
      (Version.mk "alpha-2").cmp ⟨"sp"⟩ = .lt := by
  have hstarts : ∀ {number : Bool} {v : Version},
      v.items.head?.map Item.isNumber = some number → v.StartsWith number := startsWith_iff.mpr
  obtain ⟨-, hlaws⟩ := cmp_laws
  refine ⟨?_, ?_, ?_⟩
  · exact ((hlaws true).1 _ ⟨"1.0"⟩ _ (hstarts (by decide +kernel))
      (hstarts (by decide +kernel)) (hstarts (by decide +kernel))).2 .lt (by decide +kernel)
      (by decide +kernel)
  · exact ((hlaws true).2.1 _ _ (hstarts (by decide +kernel)) (hstarts (by decide +kernel))).mp
      (by decide +kernel)
  · exact ((hlaws false).1 _ ⟨"snapshot"⟩ _ (hstarts (by decide +kernel))
      (hstarts (by decide +kernel)) (hstarts (by decide +kernel))).2 .lt (by decide +kernel)
      (by decide +kernel)

end Release

/-! ## Hashing -/

/-- Equal to `0`: starts with text, or has no number but zero. -/
def isZero [Lowercase] (v : Version) : Bool :=
  v.items.head?.any (!·.isNumber) ||
    (v.items.filter Item.isNumber).all fun item => item.cmpPadding.isEq

end Version

/-- One value fed to a hasher. -/
inductive HashInput where
  | length (n : ℕ)
  | discriminant (n : ℕ)
  | byte (value : ℤ)
  | str (text : Text)
  deriving DecidableEq

def Item.hash : Item → List HashInput
  | .min => [.discriminant 0]
  | .qualifier value => [.discriminant 1, .byte value]
  | .text token => [.discriminant 2, .str token]
  | .number digits => [.discriminant 3, .str digits]
  | .max => [.discriminant 4]

namespace Version

section Hash

variable [Lowercase] {v : Version}

def hash (v : Version) : List HashInput :=
  if v.isZero then [] else .length v.items.length :: v.items.flatMap Item.hash

theorem isZero_of_comparePadding (h : comparePadding v.items (some true) = .eq) :
    v.isZero = true := by
  rw [comparePadding_eq_iff] at h
  have hall : (v.items.filter Item.isNumber).all (fun item => item.cmpPadding.isEq) = true := by
    rw [all_eq_true]
    intro x hx
    obtain ⟨hx, hnumber⟩ := mem_filter.mp hx
    rw [h x hx (by simp [hnumber])]
    rfl
  rw [isZero, hall, Bool.or_true]

theorem isZero_of_startsWithText {x : Item} {l : List Item} (h : v.items = x :: l)
    (hx : x.isNumber = false) : v.isZero = true := by
  simp [isZero, h, hx]

theorem isZero_of_comparePadding_none (h : comparePadding v.items none = .eq) :
    v.isZero = true := by
  refine isZero_of_comparePadding (comparePadding_eq_iff.mpr fun x hx _ => ?_)
  exact comparePadding_eq_iff.mp h x hx rfl

theorem items_eq_or_isZero {a b : Version} (h : a.cmp b = .eq) :
    a.items = b.items ∨ a.isZero = true ∧ b.isZero = true := by
  have hnil : ∀ {v : Version}, v.items = [] → v.isZero = true := by
    intro v hv
    simp [isZero, hv]
  rw [cmp] at h
  cases ha : a.items with
  | nil =>
    cases hb : b.items with
    | nil => exact .inl rfl
    | cons y l' =>
      rw [ha, hb, cmpItems.eq_2 _ _ (by simp), Ordering.swap_eq_eq, ← hb] at h
      exact .inr ⟨hnil ha, isZero_of_comparePadding_none h⟩
  | cons x l =>
    cases hb : b.items with
    | nil =>
      rw [ha, hb, cmpItems.eq_3 _ _ (by simp), ← ha] at h
      exact .inr ⟨isZero_of_comparePadding_none h, hnil hb⟩
    | cons y l' =>
      by_cases hxy : x.isNumber = y.isNumber
      · left
        rw [← ha, ← hb]
        exact items_eq_of_cmp_eq ⟨x, l, ha, rfl⟩ ⟨y, l', hb, hxy.symm⟩ h
      right
      rw [ha, hb, cmpItems, if_pos hxy] at h
      -- one of the two starts with text, and the numbers of the other are zero
      split at h
      · rename_i hx
        have hy : y.isNumber = false := by simpa [hx] using hxy
        rw [← ha] at h
        exact ⟨isZero_of_comparePadding h, isZero_of_startsWithText hb hy⟩
      · rename_i hx
        rw [Ordering.swap_eq_eq, ← hb] at h
        exact ⟨isZero_of_startsWithText ha (by simpa using hx), isZero_of_comparePadding h⟩

/-- Versions that compare equal feed the same data to the hasher. -/
theorem hash_eq_of_cmp_eq {a b : Version} (h : a.cmp b = .eq) : a.hash = b.hash := by
  rcases items_eq_or_isZero h with hitems | ⟨ha, hb⟩
  · rw [hash, hash, isZero, isZero, hitems]
  · rw [hash, hash, if_pos ha, if_pos hb]

end Hash

section Zero

local instance zeroLowercase : Lowercase := asciiLowercase

/-- A text and a number that equal `0`. -/
theorem hash_eq_of_cmp_eq_zero :
    (Version.mk "alpha").cmp ⟨"0.0-x"⟩ = .eq ∧
      (Version.mk "alpha").hash = (Version.mk "0.0-x").hash := by
  have hcmp : (Version.mk "alpha").cmp ⟨"0.0-x"⟩ = .eq := by decide +kernel
  exact ⟨hcmp, hash_eq_of_cmp_eq hcmp⟩

end Zero

end Version

end Raeva

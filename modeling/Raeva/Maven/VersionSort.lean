import Raeva.Library.MergeSort
import Raeva.Maven.VersionLaws

/-!
# Sorting versions

`Version::sort_by_key` is a merge sort of its own, since the order of versions is
no order between versions that start with a number and versions that start with
a text.
-/

namespace Raeva.Version

open List

theorem eq_of_isLE_of_eq {number : Bool} {a b c : List Item}
    (hab : (cmpRuns number a b).isLE = true) (hbc : (cmpRuns number b c).isLE = true)
    (hac : cmpRuns number a c = .eq) : cmpRuns number a b = .eq ∧ cmpRuns number b c = .eq := by
  rw [Ordering.isLE_iff_eq_lt_or_eq_eq] at hab hbc
  rcases hab with hab | hab
  · have hlt : cmpRuns number a c = .lt := by
      rcases hbc with hbc | hbc
      · exact Std.TransCmp.lt_trans hab hbc
      · exact Std.TransCmp.lt_of_lt_of_eq hab hbc
    rw [hac] at hlt
    cases hlt
  · rcases hbc with hbc | hbc
    · have hlt := Std.TransCmp.lt_of_eq_of_lt hab hbc
      rw [hac] at hlt
      cases hlt
    · exact ⟨hab, hbc⟩

variable [Lowercase]

def lt (a b : Version) : Bool :=
  a.cmp b == .lt

def sortByKey {α : Type} (key : α → Version) (items : List α) : List α :=
  Sorting.mergeSort (fun x y => (key x).lt (key y)) items

theorem cmp_swap (a b : Version) : a.cmp b = (b.cmp a).swap :=
  cmpItems_swap true a.items b.items

theorem lt_asymm {a b : Version} (h : a.lt b = true) : b.lt a = false := by
  have hlt : a.cmp b = .lt := beq_iff_eq.mp h
  rw [cmp_swap, Ordering.swap_eq_lt] at hlt
  rw [lt, hlt]
  rfl

/-- Positions in the sorted list: the versions do not fall, and equal ones stand as
they stood. -/
def InOrder {α : Type} (key : α → Version) (x y : α × ℕ) : Prop :=
  ((key x.1).cmp (key y.1)).isLE = true ∧ ((key x.1).cmp (key y.1) = .eq → x.2 < y.2)

theorem inOrder_of_stably {α : Type} {key : α → Version} {x y : α × ℕ}
    (h : Sorting.Stably (fun x y => (key x).lt (key y)) x y) : InOrder key x y := by
  obtain ⟨hle, hstable⟩ := h
  refine ⟨?_, fun heq => hstable ?_⟩
  · have hnot : (key y.1).cmp (key x.1) ≠ .lt := by simpa [lt] using hle
    rw [cmp_swap] at hnot
    cases hcmp : (key x.1).cmp (key y.1) with
    | lt | eq => rfl
    | gt =>
      rw [hcmp] at hnot
      exact absurd rfl hnot
  · simp [lt, heq]

/-- Where one kind of item starts every version the order is transitive, and with
it the order of sorted positions. -/
theorem pairwise_of_isChain {α : Type} {key : α → Version} {number : Bool} {l : List (α × ℕ)}
    (hkind : ∀ x ∈ l, (key x.1).StartsWith number) (h : l.IsChain (InOrder key)) :
    l.Pairwise (InOrder key) := by
  -- Run by run all versions are compared alike, so transitivity is there for all.
  let runs : α × ℕ → α × ℕ → Prop := fun x y =>
    (cmpRuns number (key x.1).items (key y.1).items).isLE = true ∧
      (cmpRuns number (key x.1).items (key y.1).items = .eq → x.2 < y.2)
  have hruns : ∀ x ∈ l, ∀ y ∈ l, (runs x y ↔ InOrder key x y) := by
    intro x hx y hy
    rw [InOrder, cmp_eq_cmpRuns (hkind x hx) (hkind y hy)]
  have htrans : ∀ {x y z}, runs x y → runs y z → runs x z := by
    rintro x y z ⟨hxy, hxy'⟩ ⟨hyz, hyz'⟩
    refine ⟨Std.TransCmp.isLE_trans hxy hyz, fun heq => ?_⟩
    have heqs := eq_of_isLE_of_eq hxy hyz heq
    exact (hxy' heqs.1).trans (hyz' heqs.2)
  have : Trans runs runs runs := ⟨htrans⟩
  have hchain : l.IsChain runs := h.imp_of_mem_imp fun x y hx hy => (hruns x hx y hy).mpr
  exact hchain.pairwise.imp_of_mem fun hx hy => (hruns _ hx _ hy).mp

/-- Sorting permutes the list, puts neighbours in order and keeps equal ones as they
were; and where all versions start with the same kind of item this holds of any two
positions. -/
theorem sortByKey_sorted {α : Type} (key : α → Version) (items : List α) :
    (sortByKey key items).Perm items ∧
    ∃ indexed : List (α × ℕ), indexed.Perm items.zipIdx ∧
      indexed.map Prod.fst = sortByKey key items ∧ indexed.IsChain (InOrder key) ∧
      ∀ number, (∀ x ∈ items, (key x).StartsWith number) → indexed.Pairwise (InOrder key) := by
  have hpositions : items.zipIdx.Pairwise fun x y => x.2 < y.2 := by
    rw [← pairwise_map, zipIdx_map_snd]
    exact pairwise_lt_range'
  have hperm := Sorting.mergeSort_perm (fun x y => (key x.1).lt (key y.1)) items.zipIdx
  have hchain : (Sorting.mergeSort (fun x y => (key x.1).lt (key y.1)) items.zipIdx).IsChain
      (InOrder key) :=
    (Sorting.isChain_mergeSort (fun x y => (key x).lt (key y)) (fun _ _ => lt_asymm)
      hpositions).imp fun _ _ => inOrder_of_stably
  refine ⟨Sorting.mergeSort_perm _ items, _, hperm, ?_, hchain, fun number hkind => ?_⟩
  · rw [Sorting.map_mergeSort (fun x y => (key x).lt (key y)) Prod.fst, zipIdx_map_fst, sortByKey]
  · refine pairwise_of_isChain (fun x hx => hkind x.1 ?_) hchain
    exact fst_mem_of_mem_zipIdx (hperm.mem_iff.mp hx)

end Raeva.Version

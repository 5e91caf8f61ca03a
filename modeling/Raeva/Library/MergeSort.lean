import Mathlib.Data.List.Chain

/-!
# Merge sort under any comparison

A merge sort that takes from the second half only what is strictly below.  What
holds between neighbours of its result needs nothing of the comparison but that
it is not both ways; transitivity is used only to pass from neighbours to all
pairs.
-/

namespace Raeva.Sorting

open List

variable {α β : Type} (lt : α → α → Bool)

def mergeFrom (first : α) (rest : List α → List α) : List α → List α
  | [] => first :: rest []
  | second :: right =>
    if lt second first then second :: mergeFrom first rest right
    else first :: rest (second :: right)

def merge : List α → List α → List α
  | [], right => right
  | first :: left, right => mergeFrom lt first (merge left) right

def mergeSortFrom : ℕ → List α → List α
  | 0, l => l
  | fuel + 1, l =>
    if l.length < 2 then l
    else merge lt (mergeSortFrom fuel (l.take (l.length / 2)))
      (mergeSortFrom fuel (l.drop (l.length / 2)))

def mergeSort (l : List α) : List α :=
  mergeSortFrom lt l.length l

/-! ## Merging -/

@[simp] theorem merge_nil_right (left : List α) : merge lt left [] = left := by
  induction left with
  | nil => rfl
  | cons first left ih => rw [merge, mergeFrom, ih]

theorem merge_cons_cons (first second : α) (left right : List α) :
    merge lt (first :: left) (second :: right) =
      if lt second first then second :: merge lt (first :: left) right
      else first :: merge lt left (second :: right) := rfl

theorem merge_induction {motive : List α → List α → List α → Prop}
    (left_nil : ∀ right, motive [] right right)
    (right_nil : ∀ left, motive left [] left)
    (take_right : ∀ first left second right, lt second first = true →
      motive (first :: left) right (merge lt (first :: left) right) →
      motive (first :: left) (second :: right) (second :: merge lt (first :: left) right))
    (take_left : ∀ first left second right, lt second first = false →
      motive left (second :: right) (merge lt left (second :: right)) →
      motive (first :: left) (second :: right) (first :: merge lt left (second :: right)))
    (left right : List α) : motive left right (merge lt left right) := by
  induction left generalizing right with
  | nil => exact left_nil right
  | cons first left ihl =>
    induction right with
    | nil =>
      rw [merge_nil_right]
      exact right_nil _
    | cons second right ihr =>
      rw [merge_cons_cons]
      cases hlt : lt second first with
      | true => exact take_right first left second right hlt ihr
      | false => exact take_left first left second right hlt (ihl _)

theorem merge_perm (left right : List α) : (merge lt left right).Perm (left ++ right) := by
  refine merge_induction lt (motive := fun left right merged => merged.Perm (left ++ right))
    ?_ ?_ ?_ ?_ left right
  · exact fun right => .refl _
  · intro left
    rw [append_nil]
  · intro first left second right _ ih
    exact (ih.cons second).trans perm_middle.symm
  · exact fun first left second right _ ih => ih.cons first

theorem mem_head?_merge {left right : List α} {x : α} (h : x ∈ (merge lt left right).head?) :
    x ∈ left.head? ∨ x ∈ right.head? := by
  revert h
  refine merge_induction lt
    (motive := fun left right merged => x ∈ merged.head? → x ∈ left.head? ∨ x ∈ right.head?)
    ?_ ?_ ?_ ?_ left right
  · exact fun right hx => .inr hx
  · exact fun left hx => .inl hx
  · exact fun first left second right _ _ hx => .inr hx
  · exact fun first left second right _ _ hx => .inl hx

/-- Neighbours in a merge are neighbours in one part, or were chosen one after
the other. -/
theorem isChain_merge {R : α → α → Prop} {left right : List α} (hleft : left.IsChain R)
    (hright : right.IsChain R) (hforth : ∀ x ∈ left, ∀ y ∈ right, lt y x = false → R x y)
    (hback : ∀ x ∈ right, ∀ y ∈ left, lt x y = true → R x y) :
    (merge lt left right).IsChain R := by
  revert hleft hright hforth hback
  refine merge_induction lt (motive := fun left right merged => left.IsChain R → right.IsChain R →
    (∀ x ∈ left, ∀ y ∈ right, lt y x = false → R x y) →
    (∀ x ∈ right, ∀ y ∈ left, lt x y = true → R x y) → merged.IsChain R) ?_ ?_ ?_ ?_ left right
  · exact fun right _ hright _ _ => hright
  · exact fun left hleft _ _ _ => hleft
  · intro first left second right hlt ih hleft hright hforth hback
    rw [isChain_cons] at hright ⊢
    refine ⟨fun y hy => ?_, ih hleft hright.2
      (fun x hx y hy => hforth x hx y (mem_cons_of_mem second hy))
      fun x hx => hback x (mem_cons_of_mem second hx)⟩
    rcases mem_head?_merge lt hy with hy | hy
    · obtain rfl : first = y := Option.some.inj hy
      exact hback second mem_cons_self first mem_cons_self hlt
    · exact hright.1 y hy
  · intro first left second right hlt ih hleft hright hforth hback
    rw [isChain_cons] at hleft ⊢
    refine ⟨fun y hy => ?_, ih hleft.2 hright
      (fun x hx => hforth x (mem_cons_of_mem first hx))
      fun x hx y hy => hback x hx y (mem_cons_of_mem first hy)⟩
    rcases mem_head?_merge lt hy with hy | hy
    · exact hleft.1 y hy
    · obtain rfl : second = y := Option.some.inj hy
      exact hforth first mem_cons_self second mem_cons_self hlt

theorem map_merge (f : β → α) (left right : List β) :
    (merge (fun x y => lt (f x) (f y)) left right).map f = merge lt (left.map f) (right.map f) := by
  refine merge_induction (fun x y => lt (f x) (f y)) (motive := fun left right merged =>
    merged.map f = merge lt (left.map f) (right.map f)) ?_ ?_ ?_ ?_ left right
  · exact fun right => rfl
  · intro left
    rw [map_nil, merge_nil_right]
  · intro first left second right hlt ih
    rw [map_cons, ih, map_cons, map_cons, merge_cons_cons, if_pos hlt]
  · intro first left second right hlt ih
    rw [map_cons, ih, map_cons, map_cons, merge_cons_cons, hlt, if_neg Bool.false_ne_true]

/-! ## Sorting -/

theorem mergeSort_induction {motive : List α → List α → Prop}
    (short : ∀ l : List α, l.length < 2 → motive l l)
    (merged : ∀ left right left' right', motive left left' → motive right right' →
      motive (left ++ right) (merge lt left' right')) (l : List α) : motive l (mergeSort lt l) := by
  have key : ∀ (fuel : ℕ) (l : List α), l.length ≤ fuel → motive l (mergeSortFrom lt fuel l) := by
    intro fuel
    induction fuel with
    | zero =>
      intro l hl
      exact short l (by omega)
    | succ fuel ih =>
      intro l hl
      rw [mergeSortFrom]
      split
      · rename_i hshort
        exact short l hshort
      · have hhalves := merged _ _ _ _ (ih (l.take (l.length / 2)) (by rw [length_take]; omega))
          (ih (l.drop (l.length / 2)) (by rw [length_drop]; omega))
        rwa [take_append_drop] at hhalves
  exact key l.length l le_rfl

theorem mergeSort_perm (l : List α) : (mergeSort lt l).Perm l :=
  mergeSort_induction lt (motive := fun l sorted => sorted.Perm l) (fun l _ => .refl l)
    (fun _ _ left' right' hleft hright => (merge_perm lt left' right').trans
      (hleft.append hright)) l

theorem map_mergeSort (f : β → α) (l : List β) :
    (mergeSort (fun x y => lt (f x) (f y)) l).map f = mergeSort lt (l.map f) := by
  have key : ∀ (fuel : ℕ) (l : List β), (mergeSortFrom (fun x y => lt (f x) (f y)) fuel l).map f =
        mergeSortFrom lt fuel (l.map f) := by
    intro fuel
    induction fuel with
    | zero => exact fun l => rfl
    | succ fuel ih =>
      intro l
      rw [mergeSortFrom, mergeSortFrom, length_map]
      split
      · rfl
      · rw [map_merge, ih, ih, map_take, map_drop]
  rw [mergeSort, mergeSort, key, length_map]

/-- Elements with their positions: in order, and equal ones as they came. -/
def Stably (x y : α × ℕ) : Prop :=
  lt y.1 x.1 = false ∧ (lt x.1 y.1 = false → x.2 < y.2)

/-- The neighbours in a sorted list are in order, and neighbours of which
neither is below the other keep their order. -/
theorem isChain_mergeSort (hasymm : ∀ x y, lt x y = true → lt y x = false) {l : List (α × ℕ)}
    (hl : l.Pairwise fun x y => x.2 < y.2) :
    (mergeSort (fun x y => lt x.1 y.1) l).IsChain (Stably lt) := by
  revert hl
  refine (mergeSort_induction (fun x y : α × ℕ => lt x.1 y.1) (motive := fun l sorted =>
    sorted.Perm l ∧ (l.Pairwise (fun x y => x.2 < y.2) → sorted.IsChain (Stably lt)))
    (fun l hshort => ⟨.refl l, fun _ => ?_⟩)
    (fun _ _ left' right' hleft hright => ⟨?_, fun hpairs => ?_⟩) l).2
  · cases l with
    | nil => exact .nil
    | cons x l =>
      have hnil : l = [] := length_eq_zero_iff.mp (by rw [length_cons] at hshort; omega)
      rw [hnil]
      exact .singleton x
  · exact (merge_perm _ left' right').trans (hleft.1.append hright.1)
  · obtain ⟨hl, hr, hlr⟩ := pairwise_append.mp hpairs
    refine isChain_merge _ (hleft.2 hl) (hright.2 hr) (fun x hx y hy hlt => ⟨hlt, fun _ => ?_⟩)
      fun x hx y hy hlt => ⟨hasymm _ _ hlt, fun hnot => ?_⟩
    · exact hlr x (hleft.1.mem_iff.mp hx) y (hright.1.mem_iff.mp hy)
    · rw [hlt] at hnot
      cases hnot

end Raeva.Sorting
